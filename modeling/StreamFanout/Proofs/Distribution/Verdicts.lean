import StreamFanout.Proofs.Distribution.Course

/-!
Which entries of a schedule are handed to the sink, said entry by entry and without a walk: all but
those that come after a failed push of their channel, and those of a group at whose turn the
channel was not live, or of a later one.
-/
namespace StreamFanout

/-- The entries at the kept positions of a list. -/
def keep {α : Type} (kept : Nat → Bool) (xs : List α) : List α :=
  (xs.zipIdx.filter fun e => kept e.2).map Prod.fst

/-- How many positions before `p` are kept. -/
def rank (kept : Nat → Bool) (p : Nat) : Nat :=
  (List.range p).countP kept

theorem rank_congr {kept kept' : Nat → Bool} {p : Nat} (h : ∀ q < p, kept q = kept' q) :
    rank kept p = rank kept' p := by
  unfold rank
  apply List.countP_congr
  intro q hq
  rw [h q (List.mem_range.mp hq)]

namespace Feedback

/-- A push on `c` from a position before `p` was refused. -/
def Refused (fb : Feedback) (slots : List Slot) (kept : Nat → Bool) (c : Channel) (p : Nat) :
    Prop :=
  ∃ q s, q < p ∧ slots[q]? = some s ∧ s.channel = c ∧ kept q = true ∧
    fb.answer (rank kept q) ≠ .accepted

/-- A group of `c` begins at a position up to `p`, and the registry did not hold `c` at its turn. -/
def Lost (fb : Feedback) (slots : List Slot) (c : Channel) (p : Nat) : Prop :=
  ∃ q s, q ≤ p ∧ slots[q]? = some s ∧ s.channel = c ∧ s.place = 0 ∧ fb.live c s.gop = false

/-- An entry is kept unless its channel was refused or lost by then. The pushes that were made
before an entry are the kept ones before it, so `rank` tells which answer its push gets. -/
def Keeps (fb : Feedback) (slots : List Slot) (kept : Nat → Bool) : Prop :=
  ∀ p s, slots[p]? = some s →
    (kept p = true ↔ ¬fb.Refused slots kept s.channel p ∧ ¬fb.Lost slots s.channel p)

section

variable {fb : Feedback} {slots : List Slot} {kept kept' : Nat → Bool} {c : Channel} {p : Nat}

theorem Refused.congr (h : ∀ q < p, kept q = kept' q) (hr : fb.Refused slots kept c p) :
    fb.Refused slots kept' c p := by
  obtain ⟨q, s, hq, hs, hc, hk, ha⟩ := hr
  have hrank : rank kept q = rank kept' q := rank_congr fun j hj => h j (by omega)
  rw [h q hq] at hk
  rw [hrank] at ha
  exact ⟨q, s, hq, hs, hc, hk, ha⟩

end

def drop (fb : Feedback) (k : Nat) : Feedback :=
  ⟨fb.live, fun j => fb.answer (k + j)⟩

theorem drop_zero (fb : Feedback) : fb.drop 0 = fb := by
  simp [drop]

end Feedback

/-- A verdict on the first position, put before the verdicts on the others. -/
private def first (b : Bool) (kept : Nat → Bool) : Nat → Bool
  | 0 => b
  | p + 1 => kept p

namespace Feedback

/-- Nothing is taken out where every push that is made is accepted and every channel is live. -/
theorem handed_eq_self {fb : Feedback} {k : Nat} {slots : List Slot}
    (ha : ∀ j s, (fb.handed [] k slots)[j]? = some s → fb.answer (k + j) = .accepted)
    (hl : ∀ s ∈ slots, fb.live s.channel s.gop = true) : fb.handed [] k slots = slots := by
  induction slots generalizing k with
  | nil => rfl
  | cons s slots ih =>
    obtain ⟨hs, hslots⟩ := List.forall_mem_cons.mp hl
    rw [handed_cons fun _ => hs] at ha ⊢
    have h0 : fb.answer k = .accepted := ha 0 s rfl
    rw [if_pos h0] at ha ⊢
    rw [ih (fun j t ht => ?_) hslots]
    have hj := ha (j + 1) t ht
    rwa [← Nat.add_assoc, Nat.add_right_comm] at hj

end Feedback

end StreamFanout
