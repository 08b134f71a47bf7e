/-! # Similar names

The similarity of two names is that of Jaro and Winkler: the share of characters that both have at
about the same place, less for those out of order, more for a common beginning.
-/

namespace Espalier.Text

/-- The first place from `low` on, and before `high`, where `c` stands and that is not taken yet. -/
def findFree (c : Char) (low high : Nat) (taken : List Nat) (b : List Char) : Option Nat :=
  (b.zipIdx.find? fun (d, j) => low ≤ j && j < high && d == c && !taken.contains j).map (·.2)

/-- Pair the characters of `a`, from the `i`th on, with equal ones of `b` at most `range` places
away.  The second part holds the places in `b` that are taken. -/
def pairUp (range : Nat) (b : List Char) : (i : Nat) → List Char → List Nat → List Char × List Nat
  | _, [], taken => ([], taken)
  | i, c :: cs, taken =>
    match findFree c (i - range) (i + range + 1) taken b with
    | some j =>
      let (paired, taken) := pairUp range b (i + 1) cs (j :: taken)
      (c :: paired, taken)
    | none => pairUp range b (i + 1) cs taken

def jaro (a b : List Char) : Float :=
  if a.isEmpty && b.isEmpty then 1.0
  else if a.isEmpty || b.isEmpty then 0.0
  else
    let (paired, taken) := pairUp (max a.length b.length / 2 - 1) b 0 a []
    let matched := paired.length
    if matched = 0 then 0.0
    else
      let others := (b.zipIdx.filter fun (_, j) => taken.contains j).map (·.1)
      let swapped := ((paired.zip others).filter fun (c, d) => c != d).length / 2
      let m := matched.toFloat
      (m / a.length.toFloat + m / b.length.toFloat + (matched - swapped).toFloat / m) / 3.0

/-- The length of the common beginning of two names, up to four. -/
def commonStart (a b : List Char) : Nat :=
  (((a.take 4).zip b).takeWhile fun (c, d) => c == d).length

def similarity (a b : String) : Float :=
  let score := jaro a.toList b.toList
  if score > 0.7 then score + 0.1 * (commonStart a.toList b.toList).toFloat * (1.0 - score)
  else score

/-- The candidate most similar to `name`, if one is similar enough; the last of the best. -/
def suggest (name : String) (candidates : List String) : Option String :=
  let best := candidates.foldl
    (fun best candidate =>
      let score := similarity name candidate
      if score >= 0.8 then
        match best with
        | some (top, _) => if score >= top then some (score, candidate) else best
        | none => some (score, candidate)
      else best)
    (none : Option (Float × String))
  best.map (·.2)

end Espalier.Text
