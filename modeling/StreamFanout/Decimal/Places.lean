import StreamFanout.Decimal.Natural

/-!
Fractions in decimal with a fixed number of places. A quotient is first rounded to 53 significant
bits, the precision of a double, and the result is then rounded exactly; a half goes to the even
neighbour both times.
-/

namespace StreamFanout.Decimal

/-- The quotient rounded to the nearest natural number, a half to the even one. -/
def roundDiv (num den : Nat) : Nat :=
  let q := num / den
  let r := num % den
  if den < 2 * r ∨ den = 2 * r ∧ q % 2 = 1 then q + 1 else q

/-- The fraction with 53 significant bits that is nearest to `num / den`, as numerator and
denominator. -/
def significant (num den : Nat) : Nat × Nat :=
  let scale := Nat.pow 2 (54 + den.log2)
  let unit := Nat.pow 2 ((num * scale / den).log2 - 52)
  (roundDiv (num * scale) (den * unit) * unit, scale)

def padded (width n : Nat) : List Char :=
  List.replicate (width - (digits n).length) '0' ++ digits n

def places (count num den : Nat) : String :=
  let scale := Nat.pow 10 count
  let n := roundDiv (num * scale) den
  String.ofList (digits (n / scale) ++ '.' :: padded count (n % scale))

end StreamFanout.Decimal
