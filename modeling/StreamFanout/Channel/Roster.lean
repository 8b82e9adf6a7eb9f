import StreamFanout.Error

/-!
The roster of live channels. It keeps the order of registration, the indices that are taken, and a
watermark: an automatic index is the least free one at or above the watermark, and the watermark
moves past every index that is handed out. It is never lowered, so an index given up below it is not
handed out again unless it is asked for.

Channels are looked up among the taken indices, apart from the order. Registration and removal
change both, and a roster in which the two disagree cannot be built.
-/

namespace StreamFanout

theorem index_mem_nil (c : Channel) : c.index ∈ ([] : List UInt32) ↔ c ∈ ([] : List Channel) := by
  simp

/-- The live channels in order of registration, their indices in no order, and the least index that
an automatic registration may use. -/
structure Roster where
  live : List Channel := []
  taken : List UInt32 := []
  watermark : UInt32 := 0
  mem_taken : ∀ c : Channel, c.index ∈ taken ↔ c ∈ live := by exact index_mem_nil

namespace Roster

/-- The index after `i`, or `i` itself at the top of the index space. -/
def indexAfter (i : UInt32) : UInt32 :=
  if i.toNat + 1 < UInt32.size then i + 1 else i

/-- The least index at or above `i` that is not taken, if there is one. -/
def firstFree? (taken : List UInt32) (i : UInt32) : Option Channel :=
  if i ∈ taken then
    if i.toNat + 1 < UInt32.size then firstFree? taken (i + 1) else none
  else
    some ⟨i⟩
termination_by UInt32.size - i.toNat
decreasing_by
  rename_i h
  have : (i + 1).toNat = i.toNat + 1 := by
    rw [UInt32.toNat_add, UInt32.toNat_one]
    exact Nat.mod_eq_of_lt h
  omega

def contains (r : Roster) (c : Channel) : Bool :=
  c.index ∈ r.taken

theorem contains_iff {r : Roster} {c : Channel} : r.contains c = true ↔ c ∈ r.live :=
  decide_eq_true_iff.trans (r.mem_taken c)

/-- Appends a channel, takes its index and moves the watermark past it. -/
def enlist (r : Roster) (c : Channel) : Roster where
  live := r.live ++ [c]
  taken := c.index :: r.taken
  watermark := if r.watermark ≤ c.index then indexAfter c.index else r.watermark
  mem_taken d := by
    simp [r.mem_taken, Channel.index_inj, or_comm]

/-- Registers the requested channel, or the least free one at or above the watermark. A failed
registration gives no new roster. -/
def register (r : Roster) : Option Channel → Except FanoutError (Channel × Roster)
  | some c => if r.contains c then .error (.duplicateChannel c) else .ok (c, r.enlist c)
  | none =>
    match firstFree? r.taken r.watermark with
    | some c => .ok (c, r.enlist c)
    | none => .error .channelsExhausted

def unregister (r : Roster) (c : Channel) : Roster where
  live := r.live.filter (· ≠ c)
  taken := r.taken.filter (· ≠ c.index)
  watermark := r.watermark
  mem_taken d := by
    simp [r.mem_taken, Channel.index_inj]

end Roster

end StreamFanout
