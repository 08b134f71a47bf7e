import Espalier.Forest.Basic

/-! # Structural order of subtrees

Subtrees are ordered by kind, then by value, then member by member.  Sequences are compared element
by element and collections as multisets, so two subtrees are equal when they are the same tree up to
the order within collections.
-/

namespace Espalier

/-- Truth values come before integers and integers before strings. -/
def Value.compare : Value → Value → Ordering
  | .bool a, .bool b => Ord.compare a b
  | .int a, .int b => Ord.compare a b
  | .str a, .str b => Ord.compare a b
  | .bool _, _ => .lt
  | _, .bool _ => .gt
  | .int _, _ => .lt
  | _, .int _ => .gt

/-- What is absent comes first. -/
def compareOption {α : Type} (cmp : α → α → Ordering) : Option α → Option α → Ordering
  | none, none => .eq
  | none, some _ => .lt
  | some _, none => .gt
  | some a, some b => cmp a b

/-- The first difference between two lists as far as both go. -/
def compareZip {α : Type} (cmp : α → α → Ordering) : List α → List α → Ordering
  | x :: xs, y :: ys => (cmp x y).then (compareZip cmp xs ys)
  | _, _ => .eq

/-- The list without its element at `i`.  The last element takes the place of that one. -/
def swapRemove {α : Type} (xs : List α) (i : Nat) : List α :=
  match xs.getLast? with
  | some last => (xs.set i last).dropLast
  | none => []

/-- The list without its first element that passes the test, if there is one. -/
def removeFirst? {α : Type} (test : α → Bool) (xs : List α) : Option (List α) :=
  (xs.findIdx? test).map (swapRemove xs)

/-- Whether the elements of two lists can be paired with equal ones.  Each element of the first list
takes the first equal one that is still free, which is as good as any other. -/
def pairsUp {α : Type} (cmp : α → α → Ordering) : List α → List α → Bool
  | [], ys => ys.isEmpty
  | x :: xs, ys =>
    match removeFirst? (fun y => cmp x y == .eq) ys with
    | some rest => pairsUp cmp xs rest
    | none => false

def sortBy {α : Type} (cmp : α → α → Ordering) (xs : List α) : List α :=
  xs.mergeSort fun x y => (cmp x y).isLE

/-- Shorter runs come first.  Runs of one length are compared element by element if they are
ordered, and otherwise as multisets, by their sorted elements. -/
def compareRun {α : Type} (cmp : α → α → Ordering) (ordered : Bool) (xs ys : List α) : Ordering :=
  (Ord.compare xs.length ys.length).then <|
    if ordered then compareZip cmp xs ys
    else if pairsUp cmp xs ys then .eq
    else compareZip cmp (sortBy cmp xs) (sortBy cmp ys)

def Member.compare {α : Type} (cmp : α → α → Ordering) : Member α → Member α → Ordering
  | .single a, .single b => compareOption cmp a b
  | .sequence xs, .sequence ys => compareRun cmp true xs ys
  | .collection xs, .collection ys => compareRun cmp false xs ys
  | x, y => Ord.compare x.category.rank y.category.rank

def Node.compare {α : Type} (cmp : α → α → Ordering) (x y : Node α) : Ordering :=
  (Ord.compare x.kind y.kind).then <|
  (compareOption Value.compare x.value y.value).then <|
  (Ord.compare x.members.length y.members.length).then <|
    compareZip (Member.compare cmp) x.members y.members

namespace Forest

variable {s : Schema}

/-- The structural order of the subtrees at `a` and `b`. -/
def compare (f : Forest s) (a b : NodeId) : Ordering :=
  if a = b then .eq
  else
    let x := f.within (max a b) a (Nat.le_max_left a b)
    let y := f.within (max a b) b (Nat.le_max_right a b)
    x.compare (fun c d => f.compare c.val d.val) y
termination_by max a b
decreasing_by exact Nat.max_lt.mpr ⟨c.isLt, d.isLt⟩

/-- Whether the subtrees at `a` and `b` are equal up to the order within collections. -/
def equal (f : Forest s) (a b : NodeId) : Bool := f.compare a b == .eq

def compareRuns (f : Forest s) (ordered : Bool) (xs ys : List NodeId) : Ordering :=
  compareRun f.compare ordered xs ys

def sort (f : Forest s) (ids : List NodeId) : List NodeId :=
  sortBy f.compare ids

end Forest

end Espalier
