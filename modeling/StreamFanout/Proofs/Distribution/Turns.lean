import StreamFanout.Distribution.Pass
import StreamFanout.Proofs.Distribution.Blocks

/-!
The turns of a pass, and what they leave as it is. When a pass goes on it comes to the next lane
that has a group, in the present round or in the one after it, or to the ends of stream. No turn,
answer or lost channel changes the blocks that a pass is about or how many units it holds: a unit
that leaves a queue is under way, pushed or dropped.
-/
namespace StreamFanout

namespace Lane

/-- All units of a lane: those in its queue and those that became something already. -/
def units (lane : Lane) : Nat :=
  lane.pushed + lane.dropped + Gop.unitCount lane.queue

def totalUnits (lanes : List Lane) : Nat :=
  sumOf units lanes

@[simp] theorem totalUnits_nil : totalUnits [] = 0 := rfl

@[simp] theorem totalUnits_cons (lane : Lane) (lanes : List Lane) :
    totalUnits (lane :: lanes) = lane.units + totalUnits lanes := rfl

@[simp] theorem totalUnits_append (xs ys : List Lane) :
    totalUnits (xs ++ ys) = totalUnits xs + totalUnits ys := by
  simp [totalUnits]

@[simp] theorem units_accept (lane : Lane) : lane.accept.units = lane.units + 1 := by
  simp only [units, accept]
  omega

@[simp] theorem units_abandon (lane : Lane) (lost : Nat) :
    (lane.abandon lost).units = lane.units + lost := by
  simp only [units, abandon, Gop.unitCount_nil]
  omega

theorem units_pop {lane : Lane} {g : Gop} {queue : List Gop} (hq : lane.queue = g :: queue) :
    lane.units = g.length + units { lane with queue } := by
  simp only [units, hq, Gop.unitCount_cons]
  omega

def Drained (lanes : List Lane) : Prop :=
  ∀ lane ∈ lanes, lane.queue = []

theorem totalUnits_of_drained {lanes : List Lane} (h : Drained lanes) :
    totalUnits lanes = totalPushed lanes + totalDropped lanes := by
  induction lanes with
  | nil => rfl
  | cons lane lanes ih =>
    have hq := h lane List.mem_cons_self
    have ht := ih fun l hl => h l (List.mem_cons_of_mem _ hl)
    rw [totalUnits_cons, ht]
    simp only [totalPushed, totalDropped, sumOf_cons, units, hq, Gop.unitCount_nil]
    omega

theorem totalUnits_fresh {bs : List Block} {gops : List Gop} (h : Contiguous 0 gops.length bs) :
    totalUnits (bs.map (fresh gops)) = Gop.unitCount gops := by
  have hunits (bs : List Block) :
      totalUnits (bs.map (fresh gops)) = Gop.unitCount (bs.flatMap (Block.share gops)) := by
    induction bs with
    | nil => rfl
    | cons b bs ih =>
      rw [List.map_cons, totalUnits_cons, ih, List.flatMap_cons, Gop.unitCount_append]
      simp [units, fresh]
  rw [hunits, h.flatMap_share, List.drop_zero]

end Lane

namespace Pass

/-- What a pass goes on to behind a turn, with `left` rounds to come: the turn of a group, in this
round or in the next one, or the ends of stream. -/
inductive Advances (plan : Partition) (left round : Nat) (served upcoming : List Lane) :
    Pass → Prop
  | turn {passed rest : List Lane} {lane : Lane} {gop : Gop} {queue : List Gop}
    (hu : upcoming = passed ++ lane :: rest) (hq : lane.queue = gop :: queue)
    (hp : Lane.Drained passed) : Advances plan left round served upcoming
      (.looking plan (served ++ passed) { lane with queue } gop rest round)
  | round {passed rest : List Lane} {lane : Lane} {gop : Gop} {queue : List Gop}
    (hl : 0 < left) (hu : Lane.Drained upcoming) (hs : served ++ upcoming = passed ++ lane :: rest)
    (hq : lane.queue = gop :: queue) (hp : Lane.Drained passed) :
    Advances plan left round served upcoming
      (.looking plan passed { lane with queue } gop rest (round + 1))
  | ends (hu : Lane.Drained upcoming) (hs : left = 0 ∨ Lane.Drained served) :
    Advances plan left round served upcoming (conclude plan (served ++ upcoming))

variable {plan : Partition} {left round : Nat} {served upcoming : List Lane}

theorem seek_cases (plan : Partition) (round : Nat) (served upcoming : List Lane) :
    Lane.Drained upcoming ∧ seek plan round served upcoming = none ∨
      ∃ passed lane gop queue rest, upcoming = passed ++ lane :: rest ∧
        lane.queue = gop :: queue ∧ Lane.Drained passed ∧ seek plan round served upcoming =
          some (.looking plan (served ++ passed) { lane with queue } gop rest round) := by
  induction upcoming generalizing served with
  | nil => exact .inl ⟨nofun, rfl⟩
  | cons lane upcoming ih =>
    rw [seek]
    split
    · next hq =>
      rcases ih (served ++ [lane]) with ⟨hd, hs⟩ | ⟨passed, l, gop, queue, rest, rfl, hl, hp, hs⟩
      · exact .inl ⟨List.forall_mem_cons.mpr ⟨hq, hd⟩, hs⟩
      · rw [List.append_assoc] at hs
        exact .inr ⟨lane :: passed, l, gop, queue, rest, rfl, hl,
          List.forall_mem_cons.mpr ⟨hq, hp⟩, hs⟩
    · next gop queue hq =>
      refine .inr ⟨[], lane, gop, queue, upcoming, rfl, hq, nofun, ?_⟩
      rw [List.append_nil]

/-- A round in which no lane has a group is followed by rounds of the same kind. -/
theorem advance_drained {lanes : List Lane} (h : Lane.Drained lanes) (left round : Nat) :
    advance plan left round [] lanes = conclude plan lanes := by
  have hseek (round : Nat) : seek plan round [] lanes = none := by
    rcases seek_cases plan round [] lanes with
      ⟨-, hs⟩ | ⟨passed, lane, gop, queue, rest, rfl, hq, -⟩
    · exact hs
    · rw [h lane (List.mem_append_right _ List.mem_cons_self)] at hq
      cases hq
  induction left generalizing round with
  | zero => rw [advance, hseek, Option.getD_none, List.nil_append]
  | succ left ih => rw [advance, hseek, Option.getD_none, List.nil_append, ih]

theorem advances_advance (plan : Partition) (left round : Nat) (served upcoming : List Lane) :
    Advances plan left round served upcoming (advance plan left round served upcoming) := by
  rcases seek_cases plan round served upcoming with
    ⟨hu, hs⟩ | ⟨passed, lane, gop, queue, rest, hu, hq, hp, hs⟩
  · cases left with
    | zero =>
      rw [advance, hs, Option.getD_none]
      exact .ends hu (.inl rfl)
    | succ left =>
      rw [advance, hs, Option.getD_none]
      rcases seek_cases plan (round + 1) [] (served ++ upcoming) with
        ⟨hd, -⟩ | ⟨passed, lane, gop, queue, rest, hl, hq, hp, hs'⟩
      · rw [advance_drained hd]
        exact .ends hu (.inr fun l hl => hd l (List.mem_append_left _ hl))
      · have hnext : advance plan left (round + 1) [] (served ++ upcoming) =
            .looking plan passed { lane with queue } gop rest (round + 1) := by
          cases left <;> rw [advance, hs', Option.getD_some, List.nil_append]
        rw [hnext]
        exact .round (Nat.succ_pos _) hu hl hq hp
  · have hnow : advance plan left round served upcoming =
        .looking plan (served ++ passed) { lane with queue } gop rest round := by
      cases left <;> rw [advance, hs, Option.getD_some]
    rw [hnow]
    exact .turn hu hq hp

theorem start_eq (plan : Partition) (lanes : List Lane) : start plan lanes = conclude plan lanes ∨
    start plan lanes = advance plan (plan.rounds - 1) 0 [] lanes := by
  unfold start
  split
  · exact .inl rfl
  · next left h =>
    rw [h]
    exact .inr rfl

/-- Whatever comes next, the lanes are the same, but for the group whose turn it is. -/
theorem Advances.lanes_eq {p : Pass} (h : Advances plan left round served upcoming p) :
    (∃ before lane gop queue after r, served ++ upcoming = before ++ lane :: after ∧
      lane.queue = gop :: queue ∧ p = .looking plan before { lane with queue } gop after r) ∨
    p = conclude plan (served ++ upcoming) := by
  cases h with
  | turn hu hq _ =>
    rw [hu, ← List.append_assoc]
    exact .inl ⟨_, _, _, _, _, _, rfl, hq, rfl⟩
  | round _ _ hs hq _ => exact .inl ⟨_, _, _, _, _, _, hs, hq, rfl⟩
  | ends => exact .inr rfl

def lanes : Pass → List Lane
  | looking _ served lane _ upcoming _ | pushing _ served lane _ _ upcoming _ =>
    served ++ lane :: upcoming
  | ending _ lanes _ _ | booking _ lanes => lanes
  | discarding _ => []

def plan? : Pass → Option Partition
  | looking plan .. | pushing plan .. | ending plan .. | booking plan _ => some plan
  | discarding _ => none

/-- All units of a pass, the ones of the group under way included. -/
def units : Pass → Nat
  | looking _ served lane gop upcoming _ =>
    Lane.totalUnits (served ++ lane :: upcoming) + gop.length
  | pushing _ served lane _ rest upcoming _ =>
    Lane.totalUnits (served ++ lane :: upcoming) + (1 + rest.length)
  | ending _ lanes _ _ | booking _ lanes => Lane.totalUnits lanes
  | discarding gops => Gop.unitCount gops

end Pass

namespace Progress

def allLanes : Progress → List Lane
  | waiting p => p.lanes
  | finished _ lanes => lanes
  | discarded _ => []

def plan? : Progress → Option Partition
  | waiting p => p.plan?
  | finished plan _ => some plan
  | discarded _ => none

def units : Progress → Nat
  | waiting p => p.units
  | finished _ lanes => Lane.totalUnits lanes
  | discarded gops => Gop.unitCount gops

end Progress

namespace Pass

variable (live : Channel → Bool) (silent : Bool) (plan : Partition) (left round : Nat)

section

variable (lanes : List Lane)

theorem lanes_conclude : (conclude plan lanes).lanes = lanes := by
  cases lanes <;> rfl

theorem plan?_conclude : (conclude plan lanes).plan? = some plan := by
  cases lanes <;> rfl

theorem units_conclude : (conclude plan lanes).units = Lane.totalUnits lanes := by
  cases lanes <;> rfl

end

/-- What a pass goes on to is about the same blocks. -/
theorem map_advance {α : Type} {f : Lane → α} (hf : ∀ lane queue, f { lane with queue } = f lane)
    (served upcoming : List Lane) :
    (advance plan left round served upcoming).lanes.map f = (served ++ upcoming).map f := by
  rcases (advances_advance plan left round served upcoming).lanes_eq with
    ⟨before, lane, gop, queue, after, r, hl, -, ha⟩ | ha
  · rw [ha, hl]
    simp [lanes, hf]
  · rw [ha, lanes_conclude]

theorem plan?_advance (served upcoming : List Lane) :
    (advance plan left round served upcoming).plan? = some plan := by
  rcases (advances_advance plan left round served upcoming).lanes_eq with
    ⟨_, _, _, _, _, _, -, -, ha⟩ | ha
  · rw [ha]
    rfl
  · rw [ha, plan?_conclude]

theorem units_advance (served upcoming : List Lane) :
    (advance plan left round served upcoming).units = Lane.totalUnits (served ++ upcoming) := by
  rcases (advances_advance plan left round served upcoming).lanes_eq with
    ⟨before, lane, gop, queue, after, r, hl, hq, ha⟩ | ha
  · rw [ha, hl]
    simp only [units, Lane.totalUnits_append, Lane.totalUnits_cons, Lane.units_pop hq]
    omega
  · rw [ha, units_conclude]

theorem units_start (lanes : List Lane) : (start plan lanes).units = Lane.totalUnits lanes := by
  rcases start_eq plan lanes with h | h
  · rw [h, units_conclude]
  · rw [h, units_advance, List.nil_append]

theorem map_start {α : Type} {f : Lane → α} (hf : ∀ lane queue, f { lane with queue } = f lane)
    (lanes : List Lane) : (start plan lanes).lanes.map f = lanes.map f := by
  rcases start_eq plan lanes with h | h
  · rw [h, lanes_conclude]
  · rw [h, map_advance plan _ _ hf, List.nil_append]

theorem plan?_start (lanes : List Lane) : (start plan lanes).plan? = some plan := by
  rcases start_eq plan lanes with h | h
  · rw [h, plan?_conclude]
  · rw [h, plan?_advance]

/-- Nothing that a lane keeps when it gives a unit or its queue away changes in a pass. -/
theorem map_resume {α : Type} {f : Lane → α} (hf : ∀ lane queue, f { lane with queue } = f lane)
    (ha : ∀ lane, f lane.accept = f lane) (hl : ∀ lane lost, f (lane.abandon lost) = f lane)
    (p : Pass) (answer : Answer) :
    (resume live silent answer p).value.allLanes.map f = p.lanes.map f := by
  have behind (plan : Partition) (round : Nat) (served : List Lane) {l lane : Lane}
      (upcoming : List Lane) (hl : f l = f lane) :
      (next plan round (served ++ [l]) upcoming).lanes.map f =
        (served ++ lane :: upcoming).map f := by
    rw [next, map_advance plan _ _ hf]
    simp [hl]
  cases p with
  | looking plan served lane gop upcoming round =>
    rw [resume]
    split
    · rfl
    · exact behind plan round served upcoming (hl lane _)
  | pushing plan served lane unit rest upcoming round =>
    cases answer with
    | accepted =>
      cases rest with
      | nil => exact behind plan round served upcoming (ha lane)
      | cons unit rest => simp [resume, Progress.allLanes, lanes, ha]
    | refused reason => exact behind plan round served upcoming (hl lane _)
  | ending plan lanes c rest => cases rest <;> rfl
  | booking plan lanes => rfl
  | discarding gops => rfl

theorem plan?_resume (p : Pass) (answer : Answer) :
    (resume live silent answer p).value.plan? = p.plan? := by
  cases p with
  | looking plan served lane gop upcoming round =>
    rw [resume]
    split
    · rfl
    · exact plan?_advance plan _ _ _ _
  | pushing plan served lane unit rest upcoming round =>
    cases answer with
    | accepted =>
      cases rest with
      | nil => exact plan?_advance plan _ _ _ _
      | cons unit rest => rfl
    | refused reason => exact plan?_advance plan _ _ _ _
  | ending plan lanes c rest => cases rest <;> rfl
  | booking plan lanes => rfl
  | discarding gops => rfl

/-- No step changes how many units a pass holds. -/
theorem units_resume (p : Pass) (answer : Answer) :
    (resume live silent answer p).value.units = p.units := by
  have behind (plan : Partition) (round : Nat) (served : List Lane) (l : Lane)
      (upcoming : List Lane) : (next plan round (served ++ [l]) upcoming).units =
        Lane.totalUnits served + (l.units + Lane.totalUnits upcoming) := by
    rw [next, units_advance, List.append_assoc, Lane.totalUnits_append]
    rfl
  cases p with
  | looking plan served lane gop upcoming round =>
    rw [resume]
    split
    · simp only [Logged.value_bind, Logged.value_pure, Progress.units, units, Gop.length,
        Array.length_toList]
      omega
    · refine (behind plan round served _ upcoming).trans ?_
      simp only [units, Lane.totalUnits_append, Lane.totalUnits_cons, Lane.units_abandon]
      omega
  | pushing plan served lane unit rest upcoming round =>
    cases answer with
    | accepted =>
      cases rest with
      | nil =>
        refine (behind plan round served _ upcoming).trans ?_
        simp only [units, Lane.totalUnits_append, Lane.totalUnits_cons, Lane.units_accept,
          List.length_nil]
        omega
      | cons unit rest =>
        simp only [resume, Logged.value_bind, Logged.value_pure, Progress.units, units,
          Lane.totalUnits_append, Lane.totalUnits_cons, Lane.units_accept, List.length_cons]
        omega
    | refused reason =>
      refine (behind plan round served _ upcoming).trans ?_
      simp only [units, Lane.totalUnits_append, Lane.totalUnits_cons, Lane.units_abandon]
      omega
  | ending plan lanes c rest => cases rest <;> rfl
  | booking plan lanes => rfl
  | discarding gops => rfl

end Pass

end StreamFanout
