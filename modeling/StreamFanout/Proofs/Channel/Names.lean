import Mathlib.Data.List.Infix
import StreamFanout.Channel.Basic

/-!
Names of channels. A text is read as a number in decimal exactly if it is the text of that number
with zeros in front of it, and so a name is read as a channel exactly if it follows the template.
-/
namespace StreamFanout

namespace Decimal

theorem toNat_zero : '0'.toNat = 48 := by decide

theorem toNat_nine : '9'.toNat = 57 := by decide

theorem toList_text (n : Nat) : (text n).toList = digits n :=
  String.toList_ofList

theorem isDigit_of_mem_digits {c : Char} {n : Nat} (h : c ∈ digits n) : c.isDigit = true :=
  Nat.isDigit_of_mem_toDigits (by decide) (by decide) h

theorem notMem_digits {c : Char} (h : c.isDigit = false) (n : Nat) : c ∉ digits n := by
  intro hc
  rw [isDigit_of_mem_digits hc] at h
  cases h

/-- The value of a digit is below ten, and its character is the digit. -/
theorem digitChar_value {c : Char} (h : c.isDigit = true) :
    c.toNat - '0'.toNat < 10 ∧ (c.toNat - '0'.toNat).digitChar = c := by
  have hrange := Char.isDigit_iff_toNat.mp h
  rw [toNat_zero, toNat_nine] at hrange
  have hlt : c.toNat - '0'.toNat < 10 := by
    rw [toNat_zero]
    omega
  constructor
  · exact hlt
  · apply Char.toNat_inj.mp
    rw [Nat.toNat_digitChar_of_lt_ten hlt, toNat_zero]
    omega

/-- More digits are written behind those of a positive number. -/
theorem digits_append {n : Nat} (hn : 0 < n) {cs : List Char} (h : cs.all Char.isDigit = true) :
    digits n ++ cs = digits (Nat.ofDigitChars 10 cs n) := by
  induction cs generalizing n with
  | nil => simp
  | cons c cs ih =>
    simp only [List.all_cons, Bool.and_eq_true] at h
    obtain ⟨hlt, hchar⟩ := digitChar_value h.1
    have hdigit : digits (c.toNat - '0'.toNat) = [c] := by
      rw [digits, Nat.toDigits_of_lt_base hlt, hchar]
    have hstep : digits n ++ [c] = digits (10 * n + (c.toNat - '0'.toNat)) := by
      rw [← hdigit]
      exact Nat.toDigits_append_toDigits (by decide) hn hlt
    calc digits n ++ c :: cs = (digits n ++ [c]) ++ cs := by simp
      _ = digits (10 * n + (c.toNat - '0'.toNat)) ++ cs := by rw [hstep]
      _ = digits (Nat.ofDigitChars 10 (c :: cs) n) := by
        rw [ih (by omega) h.2, Nat.ofDigitChars_cons]

/-- Digits of which the first is not zero are those of their value. -/
theorem digits_ofDigitChars {c : Char} {cs : List Char} (hc : c ≠ '0')
    (h : (c :: cs).all Char.isDigit = true) :
    digits (Nat.ofDigitChars 10 (c :: cs) 0) = c :: cs := by
  simp only [List.all_cons, Bool.and_eq_true] at h
  obtain ⟨hlt, hchar⟩ := digitChar_value h.1
  have hle := (Char.isDigit_iff_toNat.mp h.1).1
  have hne : c.toNat ≠ '0'.toNat := fun he => hc (Char.toNat_inj.mp he)
  have happ := digits_append (n := c.toNat - '0'.toNat) (by omega) h.2
  rw [digits, Nat.toDigits_of_lt_base hlt, hchar] at happ
  simpa [Nat.ofDigitChars_cons] using happ.symm

theorem value?_zero_cons {cs : List Char} (h : cs ≠ []) : value? ('0' :: cs) = value? cs := by
  have hzero : Char.isDigit '0' = true := by decide
  simp [value?, h, hzero, Nat.ofDigitChars_cons]

/-- Zeros in front of a number do not change its value, and they are all that does not. -/
theorem value?_eq_some_iff {cs : List Char} {n : Nat} :
    value? cs = some n ↔ ∃ zeros, cs = List.replicate zeros '0' ++ digits n := by
  constructor
  · intro h
    induction cs with
    | nil => simp [value?] at h
    | cons c cs ih =>
      -- A zero is taken off as long as digits follow it; a lone zero is the text of zero itself.
      by_cases hzero : c = '0' ∧ cs ≠ []
      · obtain ⟨rfl, hne⟩ := hzero
        rw [value?_zero_cons hne] at h
        obtain ⟨zeros, rfl⟩ := ih h
        exact ⟨zeros + 1, rfl⟩
      · unfold value? at h
        split at h
        · next hall =>
          refine ⟨0, ?_⟩
          rw [List.replicate_zero, List.nil_append, ← Option.some.inj h]
          by_cases hc : c = '0'
          · have hnil : cs = [] := Classical.not_not.mp fun hne => hzero ⟨hc, hne⟩
            subst hc hnil
            decide
          · exact (digits_ofDigitChars hc hall.2).symm
        · cases h
  · rintro ⟨zeros, rfl⟩
    induction zeros with
    | zero => exact value?_digits n
    | succ zeros ih =>
      have hne : List.replicate zeros '0' ++ digits n ≠ [] := by
        simp [digits, Nat.toDigits_ne_nil]
      rw [List.replicate_succ, List.cons_append, value?_zero_cons hne, ih]

/-- The digits of a number have no zero in front of another digit. -/
theorem digits_ne_zero_cons (n : Nat) {cs : List Char} (h : cs ≠ []) : digits n ≠ '0' :: cs := by
  intro hn
  have hvalue : value? cs = some n := by rw [← value?_zero_cons h, ← hn, value?_digits]
  obtain ⟨zeros, hcs⟩ := value?_eq_some_iff.mp hvalue
  have hlength := congrArg List.length hn
  rw [hcs, List.length_cons, List.length_append] at hlength
  omega

end Decimal

namespace Channel

def paddedName (lead : String) (zeros : Nat) (c : Channel) : String :=
  lead ++ "_" ++ String.ofList (List.replicate zeros '0') ++ c.text

theorem toList_paddedName (lead : String) (zeros : Nat) (c : Channel) :
    (c.paddedName lead zeros).toList = lead.toList ++
      '_' :: (List.replicate zeros '0' ++ Decimal.digits c.index.toNat) := by
  simp [paddedName, text, Decimal.text]

theorem paddedName_zero (lead : String) (c : Channel) : c.paddedName lead 0 = c.name lead := by
  simp [paddedName, name]

/-- Digits are read as a channel exactly if they are those of its index, zeros in front apart. -/
theorem ofDigits?_eq_some_iff {cs : List Char} {c : Channel} :
    ofDigits? cs = some c ↔
      ∃ zeros, cs = List.replicate zeros '0' ++ Decimal.digits c.index.toNat := by
  rw [← Decimal.value?_eq_some_iff]
  unfold ofDigits?
  constructor
  · intro h
    split at h
    · next n hn =>
      split at h
      · next hlt =>
        rw [hn, ← Option.some.inj h]
        simp [Nat.mod_eq_of_lt hlt]
      · cases h
    · cases h
  · intro h
    simp [h, UInt32.toNat_lt_size]

/-- A name is read as a channel exactly if it is that channel's, zeros in front of the index
apart. -/
theorem ofName?_eq_some_iff {lead name : String} {c : Channel} :
    ofName? lead name = some c ↔ ∃ zeros, name = c.paddedName lead zeros := by
  unfold ofName?
  constructor
  · intro h
    split at h
    · next cs hcs =>
      obtain ⟨zeros, rfl⟩ := ofDigits?_eq_some_iff.mp h
      exists zeros
      apply String.toList_inj.mp
      rw [toList_paddedName]
      exact (List.isPrefixOf?_eq_some_iff_append_eq.mp hcs).symm
    · cases h
  · rintro ⟨zeros, rfl⟩
    rw [List.isPrefixOf?_eq_some_iff_append_eq.mpr (toList_paddedName lead zeros c).symm]
    exact ofDigits?_eq_some_iff.mpr ⟨zeros, rfl⟩

/-- A padded name is the plain one exactly if no zero stands in front of another digit. -/
theorem name_eq_paddedName_iff {lead : String} {zeros : Nat} {c : Channel} :
    c.name lead = c.paddedName lead zeros ↔
      ∀ rest, c.paddedName lead zeros = lead ++ "_0" ++ rest → rest = "" := by
  constructor
  · intro h rest hrest
    have hdigits : Decimal.digits c.index.toNat = '0' :: rest.toList := by
      have hlist := congrArg String.toList (h.trans hrest)
      rw [← paddedName_zero, toList_paddedName] at hlist
      simpa using hlist
    by_contra hne
    have hnil : rest.toList ≠ [] := by simpa using hne
    exact Decimal.digits_ne_zero_cons c.index.toNat hnil hdigits
  · intro h
    cases zeros with
    | zero => exact (paddedName_zero lead c).symm
    | succ zeros =>
      have hrest := h (String.ofList (List.replicate zeros '0' ++ Decimal.digits c.index.toNat)) (by
        apply String.toList_inj.mp
        simp [toList_paddedName, List.replicate_succ])
      have hlist := congrArg String.toList hrest
      simp [Decimal.digits, Nat.toDigits_ne_nil] at hlist

/-- A name is read as a channel exactly if it is the leading text, an underscore, any number of
zeros and the channel's index in decimal; every other name is refused. So reading undoes writing,
and writing undoes reading unless the name has a zero in front of another digit. -/
theorem names_follow_template (lead name : String) :
    (∀ c, ofName? lead name = some c ↔
      ∃ zeros, name = lead ++ "_" ++ String.ofList (List.replicate zeros '0') ++ c.text) ∧
    (ofName? lead name = none ↔ ∀ c : Channel, ∀ zeros,
      name ≠ lead ++ "_" ++ String.ofList (List.replicate zeros '0') ++ c.text) ∧
    (∀ c, ofName? lead (c.name lead) = some c) ∧
    ∀ c, ofName? lead name = some c →
      (c.name lead = name ↔ ∀ rest, name = lead ++ "_0" ++ rest → rest = "") := by
  have hread : ∀ c, ofName? lead name = some c ↔ ∃ zeros, name = c.paddedName lead zeros :=
    fun c => ofName?_eq_some_iff
  have hnone : ofName? lead name = none ↔ ∀ c zeros, name ≠ paddedName lead zeros c := by
    rw [Option.eq_none_iff_forall_ne_some]
    simp [hread]
  have hundo : ∀ c : Channel, ofName? lead (c.name lead) = some c := fun c =>
    ofName?_eq_some_iff.mpr ⟨0, (paddedName_zero lead c).symm⟩
  have hredo : ∀ c, ofName? lead name = some c →
      (c.name lead = name ↔ ∀ rest, name = lead ++ "_0" ++ rest → rest = "") := by
    intro c hc
    obtain ⟨zeros, rfl⟩ := ofName?_eq_some_iff.mp hc
    exact name_eq_paddedName_iff
  exact ⟨hread, hnone, hundo, hredo⟩

example : ofName? "ch_0" "ch_0_007" = some ⟨7⟩ ∧ ofName? "ch_0" "ch_0_+7" = none ∧
    ofName? "ch_0" "ch_0_4294967296" = none := by decide

end Channel

end StreamFanout
