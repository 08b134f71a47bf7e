import Espalier.Data.Basic
import Espalier.Data.Decimal

/-! # TOML scalars without quotes

Truth values, numbers, dates and times.  Digits may be grouped by single underscores.
-/

namespace Espalier.Toml

/-- The digits of a number without the underscores between them. -/
def ungroup? (isDigit : Char → Bool) : List Char → Option (List Char)
  | [] => none
  | [c] => if isDigit c then some [c] else none
  | c :: '_' :: cs => if isDigit c then (ungroup? isDigit cs).map (c :: ·) else none
  | c :: cs => if isDigit c then (ungroup? isDigit cs).map (c :: ·) else none

def isHexDigit (c : Char) : Bool :=
  c.isDigit || ('a' ≤ c && c ≤ 'f') || ('A' ≤ c && c ≤ 'F')

def digitValue (c : Char) : Nat :=
  if c.isDigit then c.toNat - '0'.toNat
  else if 'a' ≤ c && c ≤ 'f' then c.toNat - 'a'.toNat + 10
  else c.toNat - 'A'.toNat + 10

def numberOf (base : Nat) (digits : List Char) : Nat :=
  digits.foldl (fun n c => base * n + digitValue c) 0

/-- An integer of 64 bits. -/
def int? (i : Int) : Option Data :=
  if Int64.minValue.toInt ≤ i ∧ i ≤ Int64.maxValue.toInt then some (.int i) else none

/-- Digits that begin with a zero only if it is the only one. -/
def decimal? (cs : List Char) : Option (List Char) :=
  (ungroup? Char.isDigit cs).filter fun digits => digits.head? ≠ some '0' || digits.length == 1

def exponent? : List Char → Option Int
  | '-' :: cs => (ungroup? Char.isDigit cs).map fun ds => -(numberOf 10 ds : Int)
  | '+' :: cs => (ungroup? Char.isDigit cs).map fun ds => numberOf 10 ds
  | cs => (ungroup? Char.isDigit cs).map fun ds => numberOf 10 ds

/-- A number with a fraction, an exponent or both, after its sign. -/
def float? (cs : List Char) : Option Data := do
  let isGrouped (c : Char) : Bool := c.isDigit || c == '_'
  let whole ← decimal? (cs.takeWhile isGrouped)
  let (fraction, rest) ←
    match cs.dropWhile isGrouped with
    | '.' :: rest => do
      pure (← ungroup? Char.isDigit (rest.takeWhile isGrouped), rest.dropWhile isGrouped)
    | rest => pure ([], rest)
  let exponent ←
    match rest with
    | [] => if fraction.isEmpty then none else some 0
    | c :: rest => if c = 'e' ∨ c = 'E' then exponent? rest else none
  if Decimal.overflows (numberOf 10 (whole ++ fraction)) (exponent - fraction.length) then none
  else some .real

/-- A decimal number after its sign. -/
def unsigned? (negative : Bool) (cs : List Char) : Option Data :=
  if cs = ['i', 'n', 'f'] ∨ cs = ['n', 'a', 'n'] then some .real
  else
    match decimal? cs with
    | some digits =>
      let n : Int := numberOf 10 digits
      int? (if negative then -n else n)
    | none => float? cs

def twoDigits? (low high : Nat) : List Char → Option (Nat × List Char)
  | a :: b :: rest =>
    let n := numberOf 10 [a, b]
    if a.isDigit ∧ b.isDigit ∧ low ≤ n ∧ n ≤ high then some (n, rest) else none
  | _ => none

def daysIn (year month : Nat) : Nat :=
  if month = 2 then
    if year % 4 = 0 ∧ (year % 100 ≠ 0 ∨ year % 400 = 0) then 29 else 28
  else if month = 4 ∨ month = 6 ∨ month = 9 ∨ month = 11 then 30
  else 31

/-- Pass over a date. -/
def skipDate? : List Char → Option (List Char)
  | a :: b :: c :: d :: '-' :: rest =>
    if [a, b, c, d].all Char.isDigit then
      match twoDigits? 1 12 rest with
      | some (month, '-' :: rest) =>
        (twoDigits? 1 (daysIn (numberOf 10 [a, b, c, d]) month) rest).map (·.2)
      | _ => none
    else none
  | _ => none

/-- Pass over a time of day; seconds and their fractions may be missing. -/
def skipTime? (cs : List Char) : Option (List Char) :=
  match twoDigits? 0 23 cs with
  | some (_, ':' :: rest) =>
    match twoDigits? 0 59 rest with
    | some (_, ':' :: rest) =>
      match twoDigits? 0 60 rest with
      | some (_, '.' :: rest) =>
        if (rest.takeWhile Char.isDigit).isEmpty then none else some (rest.dropWhile Char.isDigit)
      | some (_, rest) => some rest
      | none => none
    | some (_, rest) => some rest
    | none => none
  | _ => none

/-- Whether this is nothing or the distance of a zone from the first meridian. -/
def isOffset : List Char → Bool
  | [] | ['Z'] | ['z'] => true
  | c :: rest =>
    if c = '+' ∨ c = '-' then
      match twoDigits? 0 23 rest with
      | some (_, ':' :: rest) => (twoDigits? 0 59 rest).any fun (_, rest) => rest.isEmpty
      | _ => false
    else false

/-- A date, a time of day, or both, perhaps with a zone. -/
def date? (cs : List Char) : Option Data :=
  match skipDate? cs with
  | some [] => some .date
  | some (c :: rest) =>
    if c = 'T' ∨ c = 't' ∨ c = ' ' then
      match skipTime? rest with
      | some rest => if isOffset rest then some .date else none
      | none => none
    else none
  | none => if skipTime? cs = some [] then some .date else none

/-- What a scalar without quotes stands for. -/
def scalar? (cs : List Char) : Option Data :=
  match cs with
  | ['t', 'r', 'u', 'e'] => some (.bool true)
  | ['f', 'a', 'l', 's', 'e'] => some (.bool false)
  | '+' :: cs => unsigned? false cs
  | '-' :: cs => unsigned? true cs
  | '0' :: 'x' :: cs => (ungroup? isHexDigit cs).bind fun ds => int? (numberOf 16 ds)
  | '0' :: 'o' :: cs =>
    (ungroup? (fun c => '0' ≤ c && c ≤ '7') cs).bind fun ds => int? (numberOf 8 ds)
  | '0' :: 'b' :: cs =>
    (ungroup? (fun c => c == '0' || c == '1') cs).bind fun ds => int? (numberOf 2 ds)
  | cs => (unsigned? false cs).or (date? cs)

/-- Whether the characters are those of a date, after which a space may lead to a time. -/
def isDate (cs : List Char) : Bool :=
  match cs with
  | [a, b, c, d, '-', e, f, '-', g, h] => [a, b, c, d, e, f, g, h].all Char.isDigit
  | _ => false

end Espalier.Toml
