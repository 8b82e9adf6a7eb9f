import StreamFanout.Distribution.Pass
import StreamFanout.Proofs.Distribution.Blocks

/-!
The schedule of a stream, said by numbers alone, and the agenda of a pass: what its lanes have
still to push, in the order in which the turns come. A fresh pass has the whole schedule before
it; taking a group off a lane takes its units off the front of the agenda, and giving a lane up
takes the units of its channel out of it.
-/
namespace StreamFanout

/-- A unit of a stream with the channel that it is meant for, the number of its group in the
stream and its place in the group. -/
structure Slot where
  channel : Channel
  gop : Nat
  place : Nat
  unit : AccessUnit
  deriving DecidableEq

namespace Slot

def call (s : Slot) : SinkCall :=
  .push s.channel s.unit

/-- Consecutive units of one group, the first of them at `place`. -/
def consecutive (c : Channel) (gop place : Nat) (us : List AccessUnit) : List Slot :=
  (us.zipIdx place).map fun (u, j) => ⟨c, gop, j, u⟩

@[simp] theorem consecutive_nil (c : Channel) (gop place : Nat) :
    consecutive c gop place [] = [] := rfl

@[simp] theorem consecutive_cons (c : Channel) (gop place : Nat) (u : AccessUnit)
    (us : List AccessUnit) :
    consecutive c gop place (u :: us) = ⟨c, gop, place, u⟩ :: consecutive c gop (place + 1) us := by
  simp [consecutive]

theorem channel_of_mem_consecutive {c : Channel} {gop place : Nat} {us : List AccessUnit}
    {s : Slot} (h : s ∈ consecutive c gop place us) : s.channel = c := by
  obtain ⟨p, -, rfl⟩ := List.mem_map.mp h
  rfl

@[simp] theorem map_unit_consecutive (c : Channel) (gop place : Nat) (us : List AccessUnit) :
    (consecutive c gop place us).map unit = us := by
  induction us generalizing place with
  | nil => rfl
  | cons u us ih => simp [ih]

end Slot

/-- The units of the `r`-th group of a block, if it has that many groups. -/
def Block.turn (gops : List Gop) (r : Nat) (b : Block) : List Slot :=
  if r < b.length then
    (gops[b.start + r]?).toList.flatMap fun g =>
      Slot.consecutive b.channel (b.start + r) 0 g.units
  else []

/-- Round after round, and in each round block after block, the units of the group whose turn it
is. No block has more groups than the stream. -/
def schedule (blocks : List Block) (gops : List Gop) : List Slot :=
  (List.range gops.length).flatMap fun r => blocks.flatMap (Block.turn gops r)

theorem Block.channel_of_mem_turn {gops : List Gop} {r : Nat} {b : Block} {s : Slot}
    (h : s ∈ b.turn gops r) : s.channel = b.channel := by
  unfold turn at h
  split at h
  · obtain ⟨g, -, hs⟩ := List.mem_flatMap.mp h
    exact Slot.channel_of_mem_consecutive hs
  · simp at h

theorem Block.getElem?_share_eq_none (gops : List Gop) {r : Nat} {b : Block} (hr : ¬r < b.length) :
    (b.share gops)[r]? = none := by
  apply List.getElem?_eq_none
  unfold share
  rw [List.length_take]
  omega

theorem Block.units_turn (gops : List Gop) (r : Nat) (b : Block) :
    (b.turn gops r).map Slot.unit = ((b.share gops)[r]?).toList.flatMap Gop.units := by
  unfold turn
  by_cases hr : r < b.length
  · simp [share, hr, List.map_flatMap, List.getElem?_drop]
  · simp [hr, b.getElem?_share_eq_none gops hr]

private theorem filter_turns_eq_turn {gops : List Gop} {r : Nat} {bs : List Block} {b : Block}
    (hd : (bs.map Block.channel).Nodup) (hb : b ∈ bs) :
    (bs.flatMap (Block.turn gops r)).filter (·.channel = b.channel) = b.turn gops r := by
  have hself : (b.turn gops r).filter (·.channel = b.channel) = b.turn gops r := by
    apply List.filter_eq_self.mpr
    intro s hs
    simp [Block.channel_of_mem_turn hs]
  have hother (cs : List Block) (hc : ∀ c ∈ cs, c.channel ≠ b.channel) :
      (cs.flatMap (Block.turn gops r)).filter (·.channel = b.channel) = [] := by
    apply List.filter_eq_nil_iff.mpr
    intro s hs
    obtain ⟨c, hm, hs⟩ := List.mem_flatMap.mp hs
    simp [Block.channel_of_mem_turn hs, hc c hm]
  obtain ⟨xs, ys, rfl⟩ := List.append_of_mem hb
  rw [List.map_append, List.map_cons, List.nodup_append] at hd
  obtain ⟨-, hys, hxs⟩ := hd
  rw [List.flatMap_append, List.flatMap_cons, List.filter_append, List.filter_append, hself,
    hother xs fun c hc => hxs _ (List.mem_map_of_mem hc) _ List.mem_cons_self,
    hother ys fun c hc heq => (List.nodup_cons.mp hys).1 (heq ▸ List.mem_map_of_mem hc),
    List.nil_append, List.append_nil]

theorem flatMap_range_getElem? {α β : Type} (f : α → List β) (xs : List α) {n : Nat}
    (h : xs.length ≤ n) : (List.range n).flatMap (fun r => (xs[r]?).toList.flatMap f) =
      xs.flatMap f := by
  induction xs generalizing n with
  | nil => simp
  | cons x xs ih =>
    cases n with
    | zero => simp at h
    | succ n =>
      rw [List.range_succ_eq_map, List.flatMap_cons, List.flatMap_map, List.flatMap_cons]
      simpa using ih (Nat.le_of_succ_le_succ h)

/-- On the channel of a block the schedule has the units of its share, in order. -/
theorem units_schedule {bs : List Block} {gops : List Gop} (h : Contiguous 0 gops.length bs)
    (hd : (bs.map Block.channel).Nodup) {b : Block} (hb : b ∈ bs) :
    ((schedule bs gops).filter (·.channel = b.channel)).map Slot.unit =
      Gop.flatten (b.share gops) := by
  have hlen : (b.share gops).length ≤ gops.length := by
    have hs := h.stop_le b hb
    unfold Block.stop at hs
    simp only [Block.share, List.length_take, List.length_drop]
    omega
  simp only [schedule, List.filter_flatMap, filter_turns_eq_turn hd hb, List.map_flatMap,
    Block.units_turn]
  exact flatMap_range_getElem? Gop.units (b.share gops) hlen

namespace Lane

def nextGop (lane : Lane) : Nat :=
  lane.block.start + (lane.block.length - lane.queue.length)

/-- The units of the lane's group that comes in `r` rounds. -/
def turn (r : Nat) (lane : Lane) : List Slot :=
  (lane.queue[r]?).toList.flatMap fun g =>
    Slot.consecutive lane.channel (lane.nextGop + r) 0 g.units

/-- What lanes have still to push in the middle of a round: the `upcoming` ones in this round,
then all of them in later rounds. -/
def agenda (bound : Nat) (served upcoming : List Lane) : List Slot :=
  upcoming.flatMap (turn 0) ++
    (List.range bound).flatMap fun r => served.flatMap (turn r) ++ upcoming.flatMap (turn (r + 1))

/-- No queue is longer than its block, and no block than `bound`. -/
structure Fits (bound : Nat) (lane : Lane) : Prop where
  queue_le : lane.queue.length ≤ lane.block.length
  block_le : lane.block.length ≤ bound

variable {bound : Nat} {served upcoming lanes : List Lane} {lane : Lane}

theorem channel_of_mem_turn {r : Nat} {s : Slot} (h : s ∈ lane.turn r) :
    s.channel = lane.channel := by
  obtain ⟨g, -, hs⟩ := List.mem_flatMap.mp h
  exact Slot.channel_of_mem_consecutive hs

theorem turn_eq_nil {r : Nat} (h : lane.queue.length ≤ r) : lane.turn r = [] := by
  simp [turn, List.getElem?_eq_none h]

theorem turn_of_queue_nil (h : lane.queue = []) (r : Nat) : lane.turn r = [] :=
  turn_eq_nil (by simp [h])

theorem Fits.pop {g : Gop} {queue : List Gop} (h : lane.Fits bound) (hq : lane.queue = g :: queue) :
    Fits bound { lane with queue } := by
  have hl := h.queue_le
  rw [hq, List.length_cons] at hl
  exact ⟨Nat.le_of_succ_le hl, h.block_le⟩

theorem Fits.abandon (h : lane.Fits bound) (lost : Nat) : (lane.abandon lost).Fits bound :=
  ⟨Nat.zero_le _, h.block_le⟩

theorem Fits.accept (h : lane.Fits bound) : lane.accept.Fits bound :=
  ⟨h.queue_le, h.block_le⟩

theorem fits_fresh {bs : List Block} {gops : List Gop} (h : Contiguous 0 gops.length bs) :
    ∀ lane ∈ bs.map (fresh gops), lane.Fits gops.length := by
  intro lane hl
  obtain ⟨b, hb, rfl⟩ := List.mem_map.mp hl
  have hs := h.stop_le b hb
  refine ⟨Nat.le_of_eq (length_queue_fresh hs), ?_⟩
  exact Nat.le_trans (Nat.le_add_left _ _) hs

theorem turn_zero {g : Gop} {queue : List Gop} (hq : lane.queue = g :: queue) :
    lane.turn 0 = Slot.consecutive lane.channel lane.nextGop 0 g.units := by
  simp [turn, hq]

/-- With one group gone, every later group comes one round earlier. -/
theorem turn_succ {g : Gop} {queue : List Gop} (h : lane.Fits bound) (hq : lane.queue = g :: queue)
    (r : Nat) : lane.turn (r + 1) = turn r { lane with queue } := by
  have hl := h.queue_le
  rw [hq, List.length_cons] at hl
  have hn : lane.nextGop + (r + 1) = nextGop { lane with queue } + r := by
    simp only [nextGop, hq, List.length_cons]
    omega
  unfold turn
  rw [hn, hq, List.getElem?_cons_succ]

theorem agenda_round (h : ∀ lane ∈ lanes, lane.Fits bound) :
    agenda bound lanes [] = agenda bound [] lanes := by
  have hlast : lanes.flatMap (turn bound) = [] := by
    apply List.flatMap_eq_nil_iff.mpr
    intro lane hl
    exact turn_eq_nil (Nat.le_trans (h lane hl).queue_le (h lane hl).block_le)
  have hall : (List.range (bound + 1)).flatMap (fun r => lanes.flatMap (turn r)) =
      (List.range bound).flatMap fun r => lanes.flatMap (turn r) := by
    rw [List.range_succ, List.flatMap_append, List.flatMap_singleton, hlast, List.append_nil]
  unfold agenda
  simp only [List.flatMap_nil, List.nil_append, List.append_nil]
  rw [← hall, List.range_succ_eq_map, List.flatMap_cons, List.flatMap_map]

theorem agenda_skip (hq : lane.queue = []) :
    agenda bound served (lane :: upcoming) = agenda bound (served ++ [lane]) upcoming := by
  simp [agenda, turn_of_queue_nil hq]

theorem agenda_pop {g : Gop} {queue : List Gop} (h : lane.Fits bound)
    (hq : lane.queue = g :: queue) :
    agenda bound served (lane :: upcoming) =
      Slot.consecutive lane.channel lane.nextGop 0 g.units ++
        agenda bound (served ++ [{ lane with queue }]) upcoming := by
  simp [agenda, turn_zero hq, turn_succ h hq]

/-- A lane that shows the same turns can stand for another one. -/
theorem agenda_congr {lane' : Lane} (h : ∀ r, lane.turn r = lane'.turn r) :
    agenda bound (served ++ [lane]) upcoming = agenda bound (served ++ [lane']) upcoming := by
  simp [agenda, h]

theorem turn_accept (r : Nat) : lane.accept.turn r = lane.turn r := rfl

private theorem filter_turns_eq {c : Channel} (h : ∀ lane ∈ lanes, lane.channel ≠ c) (r : Nat) :
    (lanes.flatMap fun l => (l.turn r).filter (·.channel ≠ c)) = lanes.flatMap (turn r) := by
  rw [← List.filter_flatMap, List.filter_eq_self]
  intro s hs
  obtain ⟨lane, hl, hs⟩ := List.mem_flatMap.mp hs
  rw [channel_of_mem_turn hs]
  simpa using h lane hl

private theorem filter_turn_eq_nil (r : Nat) :
    (lane.turn r).filter (·.channel ≠ lane.channel) = [] := by
  apply List.filter_eq_nil_iff.mpr
  intro s hs
  simp [channel_of_mem_turn hs]

/-- Giving a lane up takes the units of its channel out of the agenda. -/
theorem agenda_abandon (lost : Nat) (hs : ∀ l ∈ served, l.channel ≠ lane.channel)
    (hu : ∀ l ∈ upcoming, l.channel ≠ lane.channel) :
    agenda bound (served ++ [lane.abandon lost]) upcoming =
      (agenda bound (served ++ [lane]) upcoming).filter (·.channel ≠ lane.channel) := by
  have hr (r : Nat) : (lane.abandon lost).turn r = [] :=
    turn_of_queue_nil (queue_abandon lane lost) r
  simp only [agenda, List.flatMap_append, List.flatMap_singleton, hr, List.append_nil,
    List.filter_append, List.filter_flatMap]
  congr 1
  · exact (filter_turns_eq hu 0).symm
  · congr 1
    funext r
    rw [filter_turns_eq hs r, filter_turn_eq_nil, filter_turns_eq hu (r + 1), List.append_nil]

theorem agenda_eq_nil (hs : ∀ l ∈ served, l.queue = []) (hu : ∀ l ∈ upcoming, l.queue = []) :
    agenda bound served upcoming = [] := by
  have h (lanes : List Lane) (hl : ∀ l ∈ lanes, l.queue = []) (r : Nat) :
      lanes.flatMap (turn r) = [] :=
    List.flatMap_eq_nil_iff.mpr fun l hm => turn_of_queue_nil (hl l hm) r
  simp [agenda, h served hs, h upcoming hu]

theorem turn_fresh {b : Block} {gops : List Gop} (h : b.stop ≤ gops.length) (r : Nat) :
    (fresh gops b).turn r = b.turn gops r := by
  have hn : (fresh gops b).nextGop = b.start := by
    rw [nextGop, length_queue_fresh h]
    show b.start + (b.length - b.length) = b.start
    rw [Nat.sub_self, Nat.add_zero]
  unfold turn Block.turn
  rw [hn]
  by_cases hr : r < b.length
  · simp [fresh, Block.share, hr, List.getElem?_drop, channel]
  · simp [fresh, hr, b.getElem?_share_eq_none gops hr]

/-- Fresh lanes have the whole schedule before them. -/
theorem agenda_fresh {bs : List Block} {gops : List Gop} (h : Contiguous 0 gops.length bs) :
    agenda gops.length [] (bs.map (fresh gops)) = schedule bs gops := by
  have hturn (r : Nat) :
      (bs.map (fresh gops)).flatMap (turn r) = bs.flatMap (Block.turn gops r) := by
    rw [List.flatMap_map, List.flatMap_def, List.flatMap_def]
    exact congrArg _ (List.map_congr_left fun b hb => turn_fresh (h.stop_le b hb) r)
  rw [← agenda_round (fits_fresh h)]
  unfold agenda schedule
  simp only [List.flatMap_nil, List.nil_append, List.append_nil, hturn]

end Lane

end StreamFanout
