import StreamFanout.Proofs.Distribution.Outstanding
import StreamFanout.Proofs.Distribution.Tallies

/-!
What a pass has still to send to one channel: the units outstanding there, and then the end of the
stream. Where the channels stay live each accepted call takes its event off the front of this, and
nothing else does. Such a pass loses nothing, and its report is known from the partition alone.
-/
namespace StreamFanout

def SinkCall.eventOn? (c : Channel) (call : SinkCall) : Option ConsumerEvent :=
  if call.channel = c then some call.event else none

/-- The report of a pass that delivers all groups along a partition. -/
def fullReport (gops : List Gop) (plan : Partition) : Report where
  assignments := plan.blocks.map fun b =>
    ⟨b.channel, b.start, b.length, Gop.unitCount (b.share gops)⟩
  idle := plan.idle

namespace Pass

/-- What a pass has to send to `c`, the present call included. -/
def due (c : Channel) (p : Pass) : List ConsumerEvent :=
  (p.outstanding c).map .unit ++ if c ∈ p.scope then [.endOfStream] else []

def dueAfter (c : Channel) (p : Pass) : List ConsumerEvent :=
  (p.remainder c).map .unit ++ if c ∈ p.toCome then [.endOfStream] else []

/-- The present call is what is due first on its channel. -/
theorem due_eq {p : Pass} (hs : p.InStep) (hn : p.scope.Nodup) (c : Channel) :
    p.due c = (p.call?.bind (SinkCall.eventOn? c)).toList ++ p.dueAfter c := by
  cases p with
  | pushing plan served lane unit rest upcoming round =>
    have hevent : (unitOn? c (pushing plan served lane unit rest upcoming round)).toList.map
        ConsumerEvent.unit =
          (SinkCall.eventOn? c (.push lane.channel unit)).toList := by
      by_cases hc : lane.channel = c
      · simp [unitOn?, call?, SinkCall.unitOn?, SinkCall.eventOn?, SinkCall.channel,
          SinkCall.event, hc]
      · simp [unitOn?, call?, SinkCall.unitOn?, SinkCall.eventOn?, SinkCall.channel, hc]
    rw [due, dueAfter, outstanding_eq, List.map_append, hevent, List.append_assoc]
    rfl
  | ending plan lanes d rest =>
    have ho : (ending plan lanes d rest).outstanding c = [] := by
      show [] ++ Gop.flatten (Lane.queueOn c lanes) = []
      rw [hs.2.queueOn_eq]
      rfl
    have hr := (remainder_eq_nil ho).2
    -- The end of stream of a channel is due once.
    have hnot : d ∉ rest := (List.nodup_cons.mp hn).1
    have hdue : due c (ending plan lanes d rest) =
        if c ∈ d :: rest then [.endOfStream] else [] := by
      rw [due, ho]
      rfl
    have hafter : dueAfter c (ending plan lanes d rest) =
        if c ∈ rest then [.endOfStream] else [] := by
      rw [dueAfter, hr]
      rfl
    have hevent : ((ending plan lanes d rest).call?.bind (SinkCall.eventOn? c)) =
        if d = c then some .endOfStream else none := rfl
    rw [hdue, hafter, hevent]
    by_cases hc : d = c
    · rw [if_pos (hc ▸ List.mem_cons_self), if_pos hc, if_neg (hc ▸ hnot)]
      rfl
    · simp [hc, Ne.symm hc]
  | _ =>
    rw [due, dueAfter, outstanding_eq]
    rfl

end Pass

namespace Progress

def due (c : Channel) (r : Progress) : List ConsumerEvent :=
  (r.outstanding c).map .unit ++ if c ∈ r.scope then [.endOfStream] else []

theorem outstanding_finished {plan : Partition} {lanes : List Lane} (hd : Lane.Drained lanes)
    (c : Channel) : (finished plan lanes).outstanding c = [] := by
  show [] ++ Gop.flatten (Lane.queueOn c lanes) = []
  rw [hd.queueOn_eq]
  rfl

theorem due_finished {plan : Partition} {lanes : List Lane} (hd : Lane.Drained lanes)
    (c : Channel) : (finished plan lanes).due c = [] := by
  rw [due, outstanding_finished hd]
  rfl

/-- `r` has come so far with some groups along a partition, and nothing was lost on the channels
that are kept. -/
structure Keeps (gops : List Gop) (plan : Partition) (kept : Channel → Prop) (r : Progress) :
    Prop where
  plan?_eq : r.plan? = some plan
  inStep : r.InStep
  scope_nodup : r.scope.Nodup
  mem_channels : ∀ c ∈ r.scope, c ∈ plan.blocks.map Block.channel
  /-- What the sink has accepted and what is outstanding make up the share of a block. -/
  parts : ∃ got, r.Tallied gops got ∧ ∀ b ∈ plan.blocks, kept b.channel →
    got b.channel ++ r.outstanding b.channel = Gop.flatten (b.share gops)

/-- `r` has come so far with some groups along a partition, and nothing was lost. -/
abbrev Whole (gops : List Gop) (plan : Partition) (r : Progress) : Prop :=
  r.Keeps gops plan fun _ => True

theorem Keeps.mono {gops : List Gop} {plan : Partition} {r : Progress}
    {kept kept' : Channel → Prop} (h : r.Keeps gops plan kept) (hk : ∀ c, kept' c → kept c) :
    r.Keeps gops plan kept' :=
  let ⟨got, ht, hparts⟩ := h.parts
  { h with parts := ⟨got, ht, fun b hb hc => hparts b hb (hk _ hc)⟩ }

theorem Keeps.blocks_eq {gops : List Gop} {plan : Partition} {r : Progress}
    {kept : Channel → Prop} (h : r.Keeps gops plan kept) : r.blocks = plan.blocks :=
  h.inStep.blocks_eq h.plan?_eq

end Progress

namespace Pass

variable {gops : List Gop} {plan : Partition} {live : Channel → Bool} (silent : Bool)
  {kept : Channel → Prop}

theorem nodup_lanes_of_blocks {p : Pass} {blocks : List Block} (h : p.blocks = blocks)
    (hd : (blocks.map Block.channel).Nodup) : (p.lanes.map Lane.channel).Nodup := by
  rwa [channels_eq_blocks, h]

/-- An answer takes the present call off what is due on a channel, and leaves the rest. -/
theorem due_resume_kept {p : Pass} (hd : (p.lanes.map Lane.channel).Nodup) {c : Channel}
    (hl : live c = true) {answer : Answer}
    (ha : p.call?.map SinkCall.channel = some c → answer = .accepted) :
    (resume live silent answer p).value.due c = p.dueAfter c := by
  rw [Progress.due, dueAfter, outstanding_resume_kept silent hl hd ha, scope_resume]

/-- Where its unit is not refused a channel is credited with the unit. -/
theorem credit_kept {p : Pass} {c : Channel} {answer : Answer}
    (ha : p.call?.map SinkCall.channel = some c → answer = .accepted)
    (got : Channel → List AccessUnit) :
    p.credit got answer c = got c ++ (p.unitOn? c).toList := by
  rw [credit, unitOn?]
  cases hcall : p.call? with
  | none => rfl
  | some call =>
    rw [Option.bind_some, Option.bind_some, SinkCall.deliveredOn?]
    by_cases hc : call.channel = c
    · rw [if_pos (ha (by rw [hcall, Option.map_some, hc]))]
    · have hnone : call.unitOn? c = none := by
        cases call with
        | push d u => exact if_neg hc
        | endOfStream d => rfl
      rw [hnone, ite_self]

/-- A pass keeps a channel as long as the channel is live and no call on it is refused. -/
theorem keeps_resume {p : Pass} (hd : (plan.blocks.map Block.channel).Nodup)
    (hl : ∀ b ∈ plan.blocks, kept b.channel → live b.channel = true)
    (h : (Progress.waiting p).Keeps gops plan kept) {answer : Answer}
    (ha : ∀ c, p.call?.map SinkCall.channel = some c → kept c → answer = .accepted) :
    (resume live silent answer p).value.Keeps gops plan kept := by
  have hlanes : (p.lanes.map Lane.channel).Nodup := nodup_lanes_of_blocks h.blocks_eq hd
  obtain ⟨got, ht, hparts⟩ := h.parts
  refine ⟨(plan?_resume live silent p answer).trans h.plan?_eq,
    inStep_resume live silent h.inStep _, ?_, fun c hc => ?_, p.credit got answer,
    tallied_resume live silent hlanes ht answer, ?_⟩
  · rw [scope_resume]
    exact nodup_toCome h.scope_nodup
  · rw [scope_resume] at hc
    exact h.mem_channels c (mem_scope_of_toCome hc)
  · intro b hb hk
    rw [outstanding_resume_kept silent (hl b hb hk) hlanes fun hc => ha _ hc hk,
      credit_kept fun hc => ha _ hc hk, ← hparts b hb hk, List.append_assoc]
    exact congrArg _ (outstanding_eq b.channel p).symm

/-- A pass over fresh lanes has everything before it. -/
theorem whole_start (hc : Contiguous 0 gops.length plan.blocks)
    (hd : (plan.blocks.map Block.channel).Nodup) :
    let p := start plan (plan.blocks.map (Lane.fresh gops))
    (Progress.waiting p).Whole gops plan ∧
      ∀ b ∈ plan.blocks, p.due b.channel =
        (Gop.flatten (b.share gops)).map .unit ++ [.endOfStream] := by
  intro p
  have hblocks : (plan.blocks.map (Lane.fresh gops)).map Lane.block = plan.blocks := by
    rw [List.map_map]
    exact List.map_id _
  have hscope : p.scope = plan.blocks.map Block.channel := by
    rw [scope_start, List.map_map]
    rfl
  have hout : ∀ b ∈ plan.blocks, p.outstanding b.channel = Gop.flatten (b.share gops) := by
    intro b hb
    obtain ⟨hu, hq⟩ := start_untouched plan (plan.blocks.map (Lane.fresh gops)) b.channel
    rw [outstanding, hu, hq, Lane.queueOn_fresh hd hb, List.nil_append]
  refine ⟨⟨plan?_start plan _, inStep_start hblocks (Lane.inStep_fresh hc.stop_le), ?_, ?_,
    fun _ => [], tallied_start plan plan.blocks, fun b hb _ => hout b hb⟩, fun b hb => ?_⟩
  · show p.scope.Nodup
    rwa [hscope]
  · show ∀ c ∈ p.scope, _
    rw [hscope]
    exact fun c hm => hm
  · rw [due, hout b hb, hscope, if_pos (List.mem_map_of_mem hb)]

end Pass

theorem sumOf_eq_zero {α : Type} {f : α → Nat} {xs : List α} (h : ∀ x ∈ xs, f x = 0) :
    sumOf f xs = 0 := by
  induction xs with
  | nil => rfl
  | cons x xs ih =>
    rw [sumOf_cons, h x List.mem_cons_self, ih fun y hy => h y (List.mem_cons_of_mem x hy)]

namespace Lane

variable {gops : List Gop} {plan : Partition} {lanes : List Lane}

/-- A lane that has lost nothing of its share in a pass that is over. -/
theorem full_of_keeps {kept : Channel → Prop}
    (h : (Progress.finished plan lanes).Keeps gops plan kept) :
    ∀ l ∈ lanes, kept l.channel → l.failed = false ∧ l.dropped = 0 ∧
      l.pushed = Gop.unitCount (l.block.share gops) := by
  intro l hl hk
  obtain ⟨hblocks, hdrained⟩ := h.inStep
  obtain ⟨got, ht, hparts⟩ := h.parts
  have hb : l.block ∈ plan.blocks := hblocks ▸ List.mem_map_of_mem hl
  have hq : l.queue = [] := hdrained l hl
  have ht : l.Tally gops (got l.channel) [] := ht l hl
  have hgot : got l.channel ++ _ = _ := hparts l.block hb hk
  rw [Progress.outstanding_finished hdrained, List.append_nil] at hgot
  have hlen := congrArg List.length hgot
  rw [Gop.length_flatten] at hlen
  have hsum := ht.pushed_add_dropped hq
  have hpushed := ht.pushed_eq
  refine ⟨?_, by omega, by omega⟩
  rw [← Bool.not_eq_true, ht.failed_iff hq]
  exact fun hne => hne hgot

/-- A pass that is over and has lost nothing reports its partition, and drops no unit. -/
theorem report_of_whole (h : (Progress.finished plan lanes).Whole gops plan) :
    failedChannels lanes = [] ∧ totalDropped lanes = 0 ∧
      ⟨lanes.map assignment, plan.idle⟩ = fullReport gops plan := by
  have hfull (l : Lane) (hl : l ∈ lanes) := full_of_keeps h l hl trivial
  refine ⟨?_, sumOf_eq_zero fun l hl => (hfull l hl).2.1, ?_⟩
  · refine List.map_eq_nil_iff.mpr (List.filter_eq_nil_iff.mpr fun l hl => ?_)
    rw [(hfull l hl).1]
    exact Bool.false_ne_true
  · have hassignments : lanes.map assignment =
        plan.blocks.map fun b => ⟨b.channel, b.start, b.length, Gop.unitCount (b.share gops)⟩ := by
      have hblocks : lanes.map Lane.block = plan.blocks := h.inStep.1
      rw [← hblocks, List.map_map]
      refine List.map_congr_left fun l hl => ?_
      rw [assignment, (hfull l hl).2.2]
      rfl
    rw [hassignments, fullReport]

end Lane

end StreamFanout
