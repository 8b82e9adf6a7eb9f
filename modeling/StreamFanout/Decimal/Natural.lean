/-!
Natural numbers in decimal: the digits of a number without leading zeros, and the value of a run
of ASCII digits. Reading undoes writing.
-/

namespace StreamFanout.Decimal

def digits (n : Nat) : List Char :=
  Nat.toDigits 10 n

def text (n : Nat) : String :=
  String.ofList (digits n)

/-- The value of a run of one or more ASCII digits, with any number of leading zeros. -/
def value? (cs : List Char) : Option Nat :=
  if cs ≠ [] ∧ cs.all Char.isDigit then some (Nat.ofDigitChars 10 cs 0) else none

theorem value?_digits (n : Nat) : value? (digits n) = some n := by
  have hall : (digits n).all Char.isDigit := by
    rw [List.all_eq_true]
    exact fun _ hc => Nat.isDigit_of_mem_toDigits (by decide) (by decide) hc
  have hne : digits n ≠ [] := Nat.toDigits_ne_nil
  rw [value?, if_pos ⟨hne, hall⟩, digits, Nat.ofDigitChars_toDigits (by decide) (by decide)]

end StreamFanout.Decimal
