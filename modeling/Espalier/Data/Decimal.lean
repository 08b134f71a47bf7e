/-! # Decimal numbers -/

namespace Espalier.Decimal

/-- The least number that is rounded to infinity as a double. -/
def infinite : Nat := 1 <<< 1024 - 1 <<< 970

/-- Whether `digits · 10 ^ exponent` is beyond the doubles. -/
def overflows (digits : Nat) (exponent : Int) : Bool :=
  let magnitude := (Nat.toDigits 10 digits).length + exponent
  if digits = 0 ∨ magnitude ≤ 308 then false
  else if 309 < magnitude then true
  else if exponent < 0 then infinite * Nat.pow 10 exponent.natAbs ≤ digits
  else infinite ≤ digits * Nat.pow 10 exponent.toNat

/-- The double next to `n`, the even one of two. -/
def double (n : Nat) : Nat :=
  let unit := 1 <<< (n.log2 - 52)
  let rest := 2 * (n % unit)
  if rest < unit ∨ (rest = unit ∧ n / unit % 2 = 0) then n / unit * unit else (n / unit + 1) * unit

/-- Whether the product of `digits` and `10 ^ exponent`, each of them rounded to a double, is beyond
the doubles. -/
def productOverflows (digits : Nat) (exponent : Int) : Bool :=
  if digits = 0 ∨ exponent < 0 then false
  else if 308 < exponent then true
  else infinite ≤ double digits * double (Nat.pow 10 exponent.toNat)

end Espalier.Decimal
