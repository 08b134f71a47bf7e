/-! # Differences between texts

What two lists share is a longest common subsequence; the rest is dropped from the one or added by
the other.  Where lines change, those that go come before those that come.
-/

namespace Espalier.Text

inductive Edit (α : Type) where
  | keep (a : α)
  | drop (a : α)
  | add (a : α)
deriving Repr, DecidableEq

variable {α : Type} [DecidableEq α]

/-- The lengths of the longest common subsequences of `x :: xs` and each tail of `ys`, from those of
`xs`. -/
def commonRow (x : α) : (ys : List α) → (row : List Nat) → List Nat
  | y :: ys, n :: m :: row =>
    let rest := commonRow x ys (m :: row)
    (if x = y then m + 1 else max n (rest.headD 0)) :: rest
  | _, _ => [0]

/-- The rows of all tails of `xs`. -/
def commonRows (ys : List α) : (xs : List α) → List (List Nat)
  | [] => [List.replicate (ys.length + 1) 0]
  | x :: xs =>
    let rows := commonRows ys xs
    commonRow x ys (rows.headD []) :: rows

/-- Follow a longest common subsequence; `skipped` is how much of the second list is behind. -/
def align : (xs ys : List α) → (rows : List (List Nat)) → (skipped : Nat) → List (Edit α)
  | [], ys, _, _ => ys.map .add
  | x :: xs, [], _, _ => (x :: xs).map .drop
  | x :: xs, y :: ys, rows, skipped =>
    let below := rows.tail
    if x = y then .keep x :: align xs ys below (skipped + 1)
    else if ((rows.headD []).drop (skipped + 1)).headD 0 ≤
        ((below.headD []).drop skipped).headD 0 then
      .drop x :: align xs (y :: ys) below skipped
    else .add y :: align (x :: xs) ys rows (skipped + 1)
termination_by xs ys => xs.length + ys.length

/-- Put what is dropped between two kept lines before what is added there. -/
def dropsFirst : List (Edit α) → (drops adds : List (Edit α)) → List (Edit α)
  | [], drops, adds => drops.reverse ++ adds.reverse
  | .keep a :: es, drops, adds => drops.reverse ++ adds.reverse ++ .keep a :: dropsFirst es [] []
  | .drop a :: es, drops, adds => dropsFirst es (.drop a :: drops) adds
  | .add a :: es, drops, adds => dropsFirst es drops (.add a :: adds)

/-- How the second list differs from the first. -/
def edits (xs ys : List α) : List (Edit α) :=
  dropsFirst (align xs ys (commonRows ys xs) 0) [] []

def Edit.render : Edit String → String
  | .keep line => " " ++ line ++ "\n"
  | .drop line => "-" ++ line ++ "\n"
  | .add line => "+" ++ line ++ "\n"

/-- How two texts differ, line by line. -/
def lineDiff (before after : String) : String :=
  String.join ((edits (before.splitOn "\n") (after.splitOn "\n")).map Edit.render)

end Espalier.Text
