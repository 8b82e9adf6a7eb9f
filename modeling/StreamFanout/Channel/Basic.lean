import StreamFanout.Decimal.Natural

/-!
Output channels and their names. A channel is named by a configured text, an underscore and its
index in decimal; a name is read back only when it has exactly that form, leading zeros apart.
-/

namespace StreamFanout

/-- An output channel, known by a 32-bit index. -/
structure Channel where
  index : UInt32
  deriving DecidableEq, Repr

namespace Channel

theorem index_inj {c d : Channel} : c.index = d.index ↔ c = d := by
  cases c; cases d; simp

def text (c : Channel) : String :=
  Decimal.text c.index.toNat

def name (lead : String) (c : Channel) : String :=
  lead ++ "_" ++ c.text

/-- Reads an index from decimal digits; a value of `2 ^ 32` or more is refused. -/
def ofDigits? (cs : List Char) : Option Channel :=
  match Decimal.value? cs with
  | some n => if n < UInt32.size then some ⟨UInt32.ofNat n⟩ else none
  | none => none

def ofName? (lead name : String) : Option Channel :=
  match List.isPrefixOf? lead.toList name.toList with
  | some ('_' :: cs) => ofDigits? cs
  | _ => none

end Channel

end StreamFanout
