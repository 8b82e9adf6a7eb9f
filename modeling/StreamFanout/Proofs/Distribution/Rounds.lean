import StreamFanout.Proofs.Distribution.Turns

/-!
Rounds of a pass. Each round takes one group from every lane that has groups left, so a lane with
groups left has given away as many as there were rounds. As many rounds as the longest block has
groups are therefore enough: when they are over no queue has anything left.
-/
namespace StreamFanout

namespace Lane

/-- As long as the lane has groups left, each of `round` rounds has taken one of its groups. -/
def InStep (round : Nat) (lane : Lane) : Prop :=
  lane.queue ≠ [] → lane.queue.length + round = lane.block.length

variable {round : Nat} {lane : Lane}

theorem inStep_of_queue (h : lane.queue = []) : lane.InStep round := fun hne => absurd h hne

theorem inStep_fresh {gops : List Gop} {bs : List Block} (h : ∀ b ∈ bs, b.stop ≤ gops.length) :
    ∀ l ∈ bs.map (fresh gops), l.InStep 0 := by
  intro l hl _
  obtain ⟨b, hb, rfl⟩ := List.mem_map.mp hl
  exact length_queue_fresh (h b hb)

theorem InStep.pop {g : Gop} {queue : List Gop} (h : lane.InStep round)
    (hq : lane.queue = g :: queue) : InStep (round + 1) { lane with queue } := by
  intro _
  have hlength := h (by simp [hq])
  rw [hq, List.length_cons] at hlength
  show queue.length + (round + 1) = lane.block.length
  omega

/-- A lane is done after as many rounds as its block has groups. -/
theorem InStep.queue_eq_nil (h : lane.InStep round) (hr : lane.block.length ≤ round) :
    lane.queue = [] := by
  refine Classical.not_not.mp fun hne => ?_
  have hlength := h hne
  have hpos := List.length_pos_iff.mpr hne
  omega

theorem drained_of_rounds {plan : Partition} {lanes : List Lane}
    (hb : ∀ l ∈ lanes, l.block ∈ plan.blocks) (h : ∀ l ∈ lanes, l.InStep round)
    (hr : plan.rounds ≤ round) : Drained lanes := fun l hl =>
  (h l hl).queue_eq_nil (Partition.rounds_le_iff.mp hr l.block (hb l hl))

end Lane

/-- The lanes stand on the blocks of the partition. In a round those that were served are one group
ahead of those that wait for it, and after the rounds no lane has anything left. -/
def Pass.InStep : Pass → Prop
  | looking plan served lane _ upcoming round | pushing plan served lane _ _ upcoming round =>
    (served ++ lane :: upcoming).map Lane.block = plan.blocks ∧
      (∀ l ∈ served ++ [lane], l.InStep (round + 1)) ∧ ∀ l ∈ upcoming, l.InStep round
  | ending plan lanes _ _ | booking plan lanes =>
    lanes.map Lane.block = plan.blocks ∧ Lane.Drained lanes
  | discarding _ => True

def Progress.InStep : Progress → Prop
  | waiting p => p.InStep
  | finished plan lanes => lanes.map Lane.block = plan.blocks ∧ Lane.Drained lanes
  | discarded _ => True

namespace Pass

variable {plan : Partition} {left round : Nat} {served upcoming : List Lane}

theorem inStep_conclude {lanes : List Lane} (hb : lanes.map Lane.block = plan.blocks)
    (hd : Lane.Drained lanes) : (conclude plan lanes).InStep := by
  cases lanes <;> exact ⟨hb, hd⟩

theorem inStep_advance (hb : (served ++ upcoming).map Lane.block = plan.blocks)
    (hs : ∀ l ∈ served, l.InStep (round + 1)) (hu : ∀ l ∈ upcoming, l.InStep round)
    (hl : plan.rounds ≤ round + 1 + left) :
    (advance plan left round served upcoming).InStep := by
  have ha := advances_advance plan left round served upcoming
  generalize advance plan left round served upcoming = p at ha
  have ahead {lanes : List Lane} (hd : Lane.Drained lanes) (r : Nat) : ∀ l ∈ lanes, l.InStep r :=
    fun l hl => Lane.inStep_of_queue (hd l hl)
  cases ha with
  | turn hup hq hp =>
    subst hup
    rw [List.forall_mem_append, List.forall_mem_cons] at hu
    refine ⟨?_, ?_, hu.2.2⟩
    · rw [← hb]
      simp
    · simp only [List.forall_mem_append, List.forall_mem_singleton]
      exact ⟨⟨hs, ahead hp _⟩, hu.2.1.pop hq⟩
  | round _ hd heq hq hp =>
    have hall : ∀ l ∈ served ++ upcoming, l.InStep (round + 1) :=
      List.forall_mem_append.mpr ⟨hs, ahead hd _⟩
    rw [heq] at hall hb
    rw [List.forall_mem_append, List.forall_mem_cons] at hall
    refine ⟨?_, ?_, hall.2.2⟩
    · rw [← hb]
      simp
    · simp only [List.forall_mem_append, List.forall_mem_singleton]
      exact ⟨ahead hp _, hall.2.1.pop hq⟩
  | ends hd hover =>
    refine inStep_conclude hb (List.forall_mem_append.mpr ⟨?_, hd⟩)
    rcases hover with rfl | hdrained
    · refine Lane.drained_of_rounds (fun l hm => ?_) hs hl
      rw [← hb]
      exact List.mem_map_of_mem (List.mem_append_left _ hm)
    · exact hdrained

/-- Behind a turn the lane that had it is in step with those served before. -/
theorem inStep_next {l : Lane} (hb : (served ++ l :: upcoming).map Lane.block = plan.blocks)
    (hs : ∀ l ∈ served, l.InStep (round + 1)) (hl : l.InStep (round + 1))
    (hu : ∀ l ∈ upcoming, l.InStep round) : (next plan round (served ++ [l]) upcoming).InStep := by
  refine inStep_advance ?_ (List.forall_mem_append.mpr ⟨hs, ?_⟩) hu (by omega)
  · rw [← hb, List.append_assoc]
    rfl
  · exact List.forall_mem_singleton.mpr hl

/-- A pass begins with all groups in their queues. -/
theorem inStep_start {lanes : List Lane} (hb : lanes.map Lane.block = plan.blocks)
    (h : ∀ l ∈ lanes, l.InStep 0) : (start plan lanes).InStep := by
  unfold start
  split
  · next hr =>
    refine inStep_conclude hb (Lane.drained_of_rounds (fun l hl => ?_) h (Nat.le_of_eq hr))
    rw [← hb]
    exact List.mem_map_of_mem hl
  · next left hr =>
    refine inStep_advance hb nofun h ?_
    rw [hr]
    omega

variable (live : Channel → Bool) (silent : Bool)

/-- No step of a pass brings the lanes out of step. -/
theorem inStep_resume {p : Pass} (h : p.InStep) (answer : Answer) :
    (resume live silent answer p).value.InStep := by
  cases p with
  | looking plan served lane gop upcoming round =>
    rw [resume]
    split
    · exact h
    · obtain ⟨hb, hs, hu⟩ := h
      rw [List.forall_mem_append] at hs
      refine inStep_next ?_ hs.1 (Lane.inStep_of_queue rfl) hu
      simpa [Lane.abandon] using hb
  | pushing plan served lane unit rest upcoming round =>
    obtain ⟨hb, hs, hu⟩ := h
    have hb' (l : Lane) (hl : l.block = lane.block) :
        (served ++ l :: upcoming).map Lane.block = plan.blocks := by
      rw [← hb]
      simp [hl]
    rw [List.forall_mem_append, List.forall_mem_singleton] at hs
    cases answer with
    | accepted =>
      cases rest with
      | nil => exact inStep_next (hb' lane.accept rfl) hs.1 hs.2 hu
      | cons unit rest =>
        refine ⟨hb' lane.accept rfl, List.forall_mem_append.mpr ⟨hs.1, ?_⟩, hu⟩
        exact List.forall_mem_singleton.mpr hs.2
    | refused reason => exact inStep_next (hb' _ rfl) hs.1 (Lane.inStep_of_queue rfl) hu
  | ending plan lanes c rest => cases rest <;> exact h
  | booking plan lanes => exact h
  | discarding gops => trivial

end Pass

end StreamFanout
