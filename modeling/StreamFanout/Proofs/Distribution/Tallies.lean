import StreamFanout.Proofs.Distribution.Channels

/-!
What has become of each unit of a lane. The units of a block are, in order, those that the sink
accepted, those of the group under way, those in the queue and those that were lost; a lane has
failed exactly when some were lost. Answers and turns move units from one of these parts to
another, and when a pass is over only accepted and lost units are left.
-/
namespace StreamFanout

/-- The unit that a call has delivered, now that it is answered. -/
def SinkCall.delivered? (call : SinkCall) (answer : Answer) : Option AccessUnit :=
  match call, answer with
  | .push _ u, .accepted => some u
  | _, _ => none

def SinkCall.deliveredOn? (c : Channel) (call : SinkCall) (answer : Answer) : Option AccessUnit :=
  if answer = .accepted then call.unitOn? c else none

/-- What the sink has accepted on each channel once a pass has left its stop. -/
def Pass.credit (p : Pass) (got : Channel → List AccessUnit) (answer : Answer) :
    Channel → List AccessUnit :=
  fun c => got c ++ (p.call?.bind fun call => call.deliveredOn? c answer).toList

section

variable (got : Channel → List AccessUnit) {p : Pass} {c : Channel} {u : AccessUnit}

theorem Pass.credit_of_unitOn (h : ∀ c, p.unitOn? c = none) (answer : Answer) :
    p.credit got answer = got := by
  funext c
  have hc := h c
  unfold unitOn? at hc
  unfold credit SinkCall.deliveredOn?
  split
  · rw [hc, Option.toList_none, List.append_nil]
  · rw [Option.bind_fun_none, Option.toList_none, List.append_nil]

theorem Pass.credit_refused (reason : Refusal) : p.credit got (.refused reason) = got := by
  funext c
  simp [credit, SinkCall.deliveredOn?]

theorem Pass.credit_push_self (h : p.call? = some (.push c u)) :
    p.credit got .accepted c = got c ++ [u] := by
  simp [credit, h, SinkCall.deliveredOn?, SinkCall.unitOn?]

theorem Pass.credit_push_of_ne (h : p.call? = some (.push c u)) {d : Channel} (hd : c ≠ d) :
    p.credit got .accepted d = got d := by
  simp [credit, h, SinkCall.deliveredOn?, SinkCall.unitOn?, hd]

end

theorem sumOf_congr {α : Type} {f : α → Nat} {xs ys : List α} (h : xs.map f = ys.map f) :
    sumOf f xs = sumOf f ys := by
  have hmap (zs : List α) : sumOf f zs = sumOf id (zs.map f) := by
    induction zs with
    | nil => rfl
    | cons z zs ih => rw [List.map_cons, sumOf_cons, sumOf_cons, ih, id]
  rw [hmap, h, ← hmap]

namespace Lane

/-- `got` are the units of a lane that the sink accepted, and `ahead` those of its group under
way. -/
structure Tally (gops : List Gop) (got ahead : List AccessUnit) (lane : Lane) : Prop where
  queue_suffix : lane.queue <:+ lane.block.share gops
  pushed_eq : lane.pushed = got.length
  failed_idle : lane.failed = true → ahead = [] ∧ lane.queue = []
  parts : ∃ lost, Gop.flatten (lane.block.share gops) =
      got ++ (ahead ++ (Gop.flatten lane.queue ++ lost)) ∧
    lost.length = lane.dropped ∧ (lane.failed = true ↔ lost ≠ [])

namespace Tally

variable {gops : List Gop} {got ahead : List AccessUnit} {lane : Lane}

theorem fresh (gops : List Gop) (b : Block) : (fresh gops b).Tally gops [] [] := by
  refine ⟨List.suffix_rfl, rfl, nofun, [], ?_, rfl, ?_⟩
  · simp [Lane.fresh]
  · simp [Lane.fresh]

theorem pop {g : Gop} {queue : List Gop} (h : lane.Tally gops got [])
    (hq : lane.queue = g :: queue) : Tally gops got g.units { lane with queue } := by
  obtain ⟨lost, hparts, hlost, hfailed⟩ := h.parts
  have hsuffix : queue <:+ lane.queue := hq ▸ List.suffix_cons g queue
  refine ⟨hsuffix.trans h.queue_suffix, h.pushed_eq, fun hf => ?_, lost, ?_, hlost, hfailed⟩
  · have hnil := (h.failed_idle hf).2
    rw [hq] at hnil
    cases hnil
  · simpa [hq] using hparts

theorem accept {u : AccessUnit} (h : lane.Tally gops got (u :: ahead)) :
    lane.accept.Tally gops (got ++ [u]) ahead := by
  obtain ⟨lost, hparts, hlost, hfailed⟩ := h.parts
  refine ⟨h.queue_suffix, ?_, fun hf => ?_, lost, ?_, hlost, hfailed⟩
  · simp [Lane.accept, h.pushed_eq]
  · cases (h.failed_idle hf).1
  · rw [List.append_assoc]
    exact hparts

/-- What a lane gives up is lost, and there is something to lose. -/
theorem abandon (h : lane.Tally gops got ahead) (hne : ahead ≠ [] ∨ lane.queue ≠ []) :
    (lane.abandon ahead.length).Tally gops got [] := by
  obtain ⟨lost, hparts, hlost, -⟩ := h.parts
  refine ⟨List.nil_suffix, h.pushed_eq, fun _ => ⟨rfl, rfl⟩,
    ahead ++ (Gop.flatten lane.queue ++ lost), hparts, ?_, ?_⟩
  · simp only [List.length_append, Gop.length_flatten, hlost, Lane.abandon]
    omega
  · have hsome : ahead ++ (Gop.flatten lane.queue ++ lost) ≠ [] := by
      rcases hne with hne | hne
      · exact List.append_ne_nil_of_left_ne_nil hne _
      · have hq := Gop.flatten_ne_nil hne
        simp [hq]
    exact ⟨fun _ => hsome, fun _ => rfl⟩

theorem prefix_share (h : lane.Tally gops got ahead) :
    got <+: Gop.flatten (lane.block.share gops) := by
  obtain ⟨lost, hparts, -, -⟩ := h.parts
  exact hparts ▸ List.prefix_append _ _

/-- With nothing under way or queued a lane has failed exactly if some unit was not accepted. -/
theorem failed_iff (h : lane.Tally gops got []) (hq : lane.queue = []) :
    lane.failed = true ↔ got ≠ Gop.flatten (lane.block.share gops) := by
  obtain ⟨lost, hparts, -, hfailed⟩ := h.parts
  rw [hfailed, hparts, hq]
  simp

theorem pushed_add_dropped (h : lane.Tally gops got []) (hq : lane.queue = []) :
    got.length + lane.dropped = Gop.unitCount (lane.block.share gops) := by
  obtain ⟨lost, hparts, hlost, -⟩ := h.parts
  have hlen := congrArg List.length hparts
  simp only [hq, Gop.flatten_nil, List.nil_append, List.length_append, Gop.length_flatten] at hlen
  omega

end Tally

end Lane

namespace Pass

/-- Every lane agrees with what the sink has accepted on its channel. -/
def Tallied (gops : List Gop) (got : Channel → List AccessUnit) : Pass → Prop
  | looking _ served lane gop upcoming _ =>
    (∀ l ∈ served ++ upcoming, l.Tally gops (got l.channel) []) ∧
      lane.Tally gops (got lane.channel) gop.units
  | pushing _ served lane unit rest upcoming _ =>
    (∀ l ∈ served ++ upcoming, l.Tally gops (got l.channel) []) ∧
      lane.Tally gops (got lane.channel) (unit :: rest)
  | ending _ lanes _ _ | booking _ lanes => ∀ l ∈ lanes, l.Tally gops (got l.channel) []
  | discarding _ => True

def blocks (p : Pass) : List Block :=
  p.lanes.map Lane.block

theorem channels_eq_blocks (p : Pass) : p.lanes.map Lane.channel = p.blocks.map Block.channel := by
  rw [blocks, List.map_map]
  rfl

end Pass

namespace Progress

def Tallied (gops : List Gop) (got : Channel → List AccessUnit) : Progress → Prop
  | waiting p => p.Tallied gops got
  | finished _ lanes => ∀ l ∈ lanes, l.Tally gops (got l.channel) []
  | discarded _ => True

def blocks (p : Progress) : List Block :=
  p.allLanes.map Lane.block

def pushed (p : Progress) : Nat :=
  Lane.totalPushed p.allLanes

theorem InStep.blocks_eq {r : Progress} {plan : Partition} (h : r.InStep)
    (hp : r.plan? = some plan) : r.blocks = plan.blocks := by
  cases r with
  | waiting p =>
    cases p with
    | discarding gops => cases hp
    | _ =>
      cases hp
      exact h.1
  | finished plan lanes =>
    cases hp
    exact h.1
  | discarded gops => cases hp

end Progress

namespace Pass

variable {gops : List Gop} {got : Channel → List AccessUnit} {plan : Partition}

theorem tallied_conclude {lanes : List Lane}
    (h : ∀ l ∈ lanes, l.Tally gops (got l.channel) []) :
    (conclude plan lanes).Tallied gops got := by
  cases lanes <;> exact h

theorem tallied_advance (left round : Nat) {served upcoming : List Lane}
    (h : ∀ l ∈ served ++ upcoming, l.Tally gops (got l.channel) []) :
    (advance plan left round served upcoming).Tallied gops got := by
  rcases (advances_advance plan left round served upcoming).lanes_eq with
    ⟨before, lane, gop, queue, after, r, hl, hq, ha⟩ | ha
  · rw [ha]
    rw [hl, Lane.forall_mem_others] at h
    exact ⟨h.1, h.2.pop hq⟩
  · rw [ha]
    exact tallied_conclude h

theorem tallied_next (round : Nat) {served upcoming : List Lane} {l : Lane}
    (hother : ∀ l ∈ served ++ upcoming, l.Tally gops (got l.channel) [])
    (hl : l.Tally gops (got l.channel) []) :
    (next plan round (served ++ [l]) upcoming).Tallied gops got := by
  refine tallied_advance _ _ ?_
  rw [List.append_assoc]
  exact Lane.forall_mem_others.mpr ⟨hother, hl⟩

theorem tallied_start (plan : Partition) (bs : List Block) :
    (start plan (bs.map (Lane.fresh gops))).Tallied gops fun _ => [] := by
  have hfresh : ∀ l ∈ bs.map (Lane.fresh gops), l.Tally gops [] [] := by
    intro l hl
    obtain ⟨b, -, rfl⟩ := List.mem_map.mp hl
    exact Lane.Tally.fresh gops b
  rcases start_eq plan (bs.map (Lane.fresh gops)) with h | h
  · rw [h]
    exact tallied_conclude hfresh
  · rw [h]
    exact tallied_advance _ _ hfresh

variable (live : Channel → Bool) (silent : Bool)

/-- An answer credits the unit that was under way, or gives its lane up. -/
theorem tallied_resume {p : Pass} (hd : (p.lanes.map Lane.channel).Nodup)
    (h : p.Tallied gops got) (answer : Answer) :
    (resume live silent answer p).value.Tallied gops (p.credit got answer) := by
  cases p with
  | looking plan served lane gop upcoming round =>
    obtain ⟨hother, hlane⟩ := h
    rw [credit_of_unitOn got fun _ => rfl, resume]
    split
    · exact ⟨hother, hlane⟩
    · have hlost := hlane.abandon (.inl (List.cons_ne_nil _ _))
      rw [Gop.length_units] at hlost
      exact tallied_next round hother hlost
  | pushing plan served lane unit rest upcoming round =>
    obtain ⟨hother, hlane⟩ := h
    cases answer with
    | refused reason =>
      rw [credit_refused]
      have hlost := hlane.abandon (.inl (List.cons_ne_nil _ _))
      rw [List.length_cons, Nat.add_comm] at hlost
      exact tallied_next round hother hlost
    | accepted =>
      -- Channels do not repeat, so the unit is credited to this lane alone.
      obtain ⟨hs, hu⟩ := Lane.channels_ne hd
      have hcall : call? (pushing plan served lane unit rest upcoming round) =
        some (.push lane.channel unit) := rfl
      have hcredit : lane.accept.Tally gops (credit (pushing plan served lane unit rest upcoming
          round) got .accepted lane.accept.channel) rest := by
        rw [show lane.accept.channel = lane.channel from rfl, credit_push_self got hcall]
        exact hlane.accept
      have hother' : ∀ m ∈ served ++ upcoming, m.Tally gops (credit (pushing plan served lane unit
          rest upcoming round) got .accepted m.channel) [] := by
        intro m hm
        have hne : lane.channel ≠ m.channel := by
          rcases List.mem_append.mp hm with hm | hm
          · exact (hs m hm).symm
          · exact (hu m hm).symm
        rw [credit_push_of_ne got hcall hne]
        exact hother m hm
      cases rest with
      | nil => exact tallied_next round hother' hcredit
      | cons v rest => exact ⟨hother', hcredit⟩
  | ending plan lanes c rest =>
    rw [credit_of_unitOn got fun _ => rfl]
    cases rest <;> exact h
  | booking plan lanes =>
    rw [credit_of_unitOn got fun _ => rfl]
    exact h
  | discarding gops => trivial

theorem blocks_resume (p : Pass) (answer : Answer) :
    (resume live silent answer p).value.blocks = p.blocks :=
  map_resume live silent (fun _ _ => rfl) (fun _ => rfl) (fun _ _ => rfl) p answer

theorem blocks_start (plan : Partition) (gops : List Gop) (bs : List Block) :
    (start plan (bs.map (Lane.fresh gops))).blocks = bs := by
  rw [blocks, map_start plan fun _ _ => rfl, List.map_map]
  exact List.map_id _

theorem pushed_start (plan : Partition) (gops : List Gop) (bs : List Block) :
    Lane.totalPushed (start plan (bs.map (Lane.fresh gops))).lanes = 0 := by
  have h := map_start plan (f := Lane.pushed) (fun _ _ => rfl) (bs.map (Lane.fresh gops))
  rw [Lane.totalPushed, sumOf_congr h]
  clear h
  induction bs with
  | nil => rfl
  | cons b bs ih => simpa [Lane.fresh] using ih

/-- A pass counts one unit more for each push that is accepted. -/
theorem pushed_resume (p : Pass) (answer : Answer) :
    (resume live silent answer p).value.pushed = Lane.totalPushed p.lanes +
      (p.call?.bind fun call => call.delivered? answer).toList.length := by
  have behind (plan : Partition) (round : Nat) (served upcoming : List Lane) (l : Lane) :
      Lane.totalPushed (next plan round (served ++ [l]) upcoming).lanes =
        Lane.totalPushed (served ++ l :: upcoming) := by
    have h := map_advance plan (plan.rounds - (round + 1)) round (f := Lane.pushed)
      (fun _ _ => rfl) (served ++ [l]) upcoming
    rw [List.append_assoc] at h
    exact sumOf_congr h
  cases p with
  | looking plan served lane gop upcoming round =>
    rw [resume]
    split
    · rfl
    · refine (behind plan round served upcoming _).trans ?_
      simp [lanes, Lane.totalPushed, Lane.abandon, call?]
  | pushing plan served lane unit rest upcoming round =>
    cases answer with
    | refused reason =>
      refine (behind plan round served upcoming _).trans ?_
      simp [lanes, Lane.totalPushed, Lane.abandon, call?, SinkCall.delivered?]
    | accepted =>
      have hone : Lane.totalPushed (served ++ lane.accept :: upcoming) =
          Lane.totalPushed (served ++ lane :: upcoming) + 1 := by
        simp only [Lane.totalPushed, sumOf_append, sumOf_cons, Lane.accept]
        omega
      cases rest with
      | nil => exact (behind plan round served upcoming _).trans hone
      | cons v rest => exact hone
  | ending plan lanes c rest => cases rest <;> rfl
  | booking plan lanes => rfl
  | discarding gops => rfl

end Pass

end StreamFanout
