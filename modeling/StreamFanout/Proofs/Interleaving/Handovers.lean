import StreamFanout.Proofs.Interleaving.Intakes

/-!
What a run hands to the sink, of all passes together. On one channel a pass hands over the units
of that channel's block from the first one on, so how often it did so before gives the place of a
unit in the block, and with the place its number among all units that were accepted.
-/
namespace StreamFanout

/-- A unit that a pass hands to the sink, whatever the sink says to it. -/
structure Handover where
  pass : Nat
  channel : Channel
  unit : AccessUnit

namespace Handover

def lane (e : Handover) : Nat × Channel :=
  (e.pass, e.channel)

/-- How many units were handed over before by the same pass on the same channel. -/
def rank (past : List Handover) (e : Handover) : Nat :=
  past.countP (·.lane = e.lane)

variable {es : List Handover} {e : Handover} {k : Nat}

theorem getElem?_rank (h : es[k]? = some e) :
    (es.filter (·.lane = e.lane))[rank (es.take k) e]? = some e := by
  obtain ⟨hk, he⟩ := List.getElem?_eq_some_iff.mp h
  have hsplit : es = es.take k ++ e :: es.drop (k + 1) := by
    rw [← he, ← List.drop_eq_getElem_cons hk, List.take_append_drop]
  have hfilter : es.filter (·.lane = e.lane) = (es.take k).filter (·.lane = e.lane) ++
      e :: (es.drop (k + 1)).filter (·.lane = e.lane) := by
    conv => lhs; rw [hsplit]
    rw [List.filter_append, List.filter_cons_of_pos (by simp)]
  rw [hfilter, rank, List.countP_eq_length_filter, List.getElem?_append_right (Nat.le_refl _),
    Nat.sub_self]
  rfl

/-- Each rank that there is on a lane is the rank of one of its handovers. -/
theorem exists_rank {lane : Nat × Channel} {r : Nat}
    (h : r < (es.filter (·.lane = lane)).length) :
    ∃ k e, es[k]? = some e ∧ e.lane = lane ∧ rank (es.take k) e = r := by
  induction es generalizing r with
  | nil => cases h
  | cons e es ih =>
    by_cases he : e.lane = lane
    · rw [List.filter_cons_of_pos (by simpa using he), List.length_cons] at h
      cases r with
      | zero => exact ⟨0, e, rfl, he, rfl⟩
      | succ r =>
        obtain ⟨k, e', hk, he', hr⟩ := ih (Nat.lt_of_succ_lt_succ h)
        refine ⟨k + 1, e', hk, he', ?_⟩
        rw [List.take_succ_cons, rank, List.countP_cons_of_pos (by simp [he, he'])]
        exact congrArg (· + 1) hr
    · rw [List.filter_cons_of_neg (by simpa using he)] at h
      obtain ⟨k, e', hk, he', hr⟩ := ih h
      refine ⟨k + 1, e', hk, he', ?_⟩
      rw [List.take_succ_cons, rank, List.countP_cons_of_neg (by simp [he, he'])]
      exact hr

/-- On one lane a later handover has a larger rank. -/
theorem rank_lt {e' : Handover} {k' : Nat} (h : es[k]? = some e) (hl : e.lane = e'.lane)
    (hk : k < k') : rank (es.take k) e < rank (es.take k') e' := by
  have hsucc : rank (es.take (k + 1)) e = rank (es.take k) e + 1 := by
    rw [List.take_add_one, h, rank, List.countP_append]
    simp [rank]
  have hle : rank (es.take (k + 1)) e ≤ rank (es.take k') e :=
    (List.take_sublist_take_left hk).countP_le
  have heq : rank (es.take k') e = rank (es.take k') e' := by
    rw [rank, rank, hl]
  omega

end Handover

def StepResult.handover? : StepResult → Option Handover
  | .waiting n (some (.push c u)) => some ⟨n, c, u⟩
  | _ => none

section

variable {c : Channel} {calls : List SinkCall} {answers : List Answer}

theorem sentOn_cons (c : Channel) (call : SinkCall) (calls : List SinkCall) :
    sentOn c (call :: calls) = (call.unitOn? c).toList ++ sentOn c calls := by
  rw [sentOn, filterMap_cons_eq]
  rfl

theorem deliveredOn_cons (c : Channel) (call : SinkCall) (calls : List SinkCall) (a : Answer)
    (answers : List Answer) :
    deliveredOn c (call :: calls) (a :: answers) =
      (call.deliveredOn? c a).toList ++ deliveredOn c calls answers := by
  rw [deliveredOn, List.zip_cons_cons, filterMap_cons_eq]
  rfl

theorem SinkCall.length_deliveredOn?_le (c : Channel) (call : SinkCall) (answer : Answer) :
    (call.deliveredOn? c answer).toList.length ≤ (call.unitOn? c).toList.length := by
  unfold deliveredOn?
  split
  · exact Nat.le_refl _
  · exact Nat.zero_le _

theorem length_deliveredOn_le (c : Channel) (calls : List SinkCall) (answers : List Answer) :
    (deliveredOn c calls answers).length ≤ (sentOn c calls).length := by
  induction calls generalizing answers with
  | nil => exact Nat.le_refl _
  | cons call calls ih =>
    cases answers with
    | nil => exact Nat.zero_le _
    | cons a answers =>
      rw [deliveredOn_cons, sentOn_cons, List.length_append, List.length_append]
      exact Nat.add_le_add (call.length_deliveredOn?_le c a) (ih answers)

/-- Where as many units were accepted as were sent, each push was answered by an acceptance. -/
theorem accepted_of_length_le (h : (sentOn c calls).length ≤ (deliveredOn c calls answers).length)
    {k : Nat} {u : AccessUnit} (hk : calls[k]? = some (.push c u)) :
    answers[k]? = some .accepted := by
  induction calls generalizing answers k with
  | nil => cases hk
  | cons call calls ih =>
    cases answers with
    | nil =>
      have hsent : u ∈ sentOn c (call :: calls) :=
        List.mem_filterMap.mpr ⟨_, List.mem_of_getElem? hk, if_pos rfl⟩
      exact absurd (List.length_pos_of_mem hsent) (Nat.not_lt.mpr h)
    | cons a answers =>
      rw [sentOn_cons, deliveredOn_cons, List.length_append, List.length_append] at h
      have hcall := call.length_deliveredOn?_le c a
      have hcalls := length_deliveredOn_le c calls answers
      cases k with
      | zero =>
        cases hk
        refine congrArg some (Classical.byContradiction fun ha => ?_)
        simp [SinkCall.deliveredOn?, SinkCall.unitOn?, ha] at h
        omega
      | succ k =>
        rw [List.getElem?_cons_succ] at hk ⊢
        exact ih (by omega) hk

end

namespace Interleaving

def handovers (i : Interleaving) (steps : List Step) : List Handover :=
  (i.shown steps).filterMap StepResult.handover?

variable {i : Interleaving}

/-- What a pass sends on a channel are its handovers there. -/
theorem sentOn_calls (i : Interleaving) (n : Nat) (c : Channel) (steps : List Step) :
    sentOn c (i.calls n steps) =
      ((i.handovers steps).filter (·.lane = (n, c))).map Handover.unit := by
  unfold sentOn calls handovers
  rw [List.filterMap_filterMap, List.filter_filterMap, List.map_filterMap]
  congr 1
  funext result
  cases result with
  | waiting m call =>
    rcases call with _ | ⟨d, u⟩ | d
    · simp [StepResult.handover?, StepResult.call?]
    · by_cases hm : m = n
      · by_cases hd : d = c <;> simp [StepResult.call?, StepResult.handover?, SinkCall.unitOn?,
          Handover.lane, hm, hd, Option.filter]
      · simp [StepResult.call?, StepResult.handover?, Handover.lane, hm, Option.filter]
    · by_cases hm : m = n <;> simp [StepResult.call?, StepResult.handover?, SinkCall.unitOn?, hm]
  | _ => rfl

theorem pass_lt_of_mem_handovers (h : i.Sound) {steps : List Step} {e : Handover}
    (he : e ∈ i.handovers steps) : e.pass < (i.after steps).streamsEnded := by
  obtain ⟨result, hm, hr⟩ := List.mem_filterMap.mp he
  unfold StepResult.handover? at hr
  split at hr
  · cases hr
    exact lt_of_mem_shown h hm rfl
  · cases hr

/-- A pass sends on each of its channels the first units of that channel's block. -/
theorem sentOn_prefix_share (h : i.Sound) (during : List Step) {b : Block}
    (hb : b ∈ i.fanout.blocks) :
    sentOn b.channel (i.calls i.streamsEnded (.endStream :: during)) <+:
      Gop.flatten (b.share i.fanout.grouping.groups) := by
  by_cases hv : i.fanout.grouping.groups = [] ∨ i.fanout.live = []
  · rw [calls_endStream_vain h hv]
    exact List.nil_prefix
  · obtain ⟨hg, hl⟩ := not_or.mp hv
    have hhanded := ((i.feedback during).prefix_filter_handed [] 0
      (schedule i.fanout.blocks i.fanout.grouping.groups) b.channel).map Slot.unit
    have hblocks := Fanout.nodup_blocks h.live_nodup
    rw [units_schedule (Fanout.contiguous_blocks hl) hblocks hb] at hhanded
    refine List.IsPrefix.trans ?_ hhanded
    have hfirst := (calls_endStream h hg hl during).1.filterMap (SinkCall.unitOn? b.channel)
    rw [← sentOn, ← sentOn, Pass.calls, sentOn_append, sentOn_endOfStream, List.append_nil,
      sentOn_pushes] at hfirst
    exact hfirst

/-- A pass sends nothing on a channel that is not one of its own. -/
theorem mem_live_of_sentOn (h : i.Sound) {during : List Step} {c : Channel}
    (hc : sentOn c (i.calls i.streamsEnded (.endStream :: during)) ≠ []) :
    c ∈ i.fanout.live := by
  by_cases hv : i.fanout.grouping.groups = [] ∨ i.fanout.live = []
  · rw [calls_endStream_vain h hv] at hc
    exact absurd rfl hc
  · obtain ⟨hg, hl⟩ := not_or.mp hv
    obtain ⟨u, hu⟩ := List.exists_mem_of_ne_nil _ hc
    obtain ⟨call, hcall, hunit⟩ := List.mem_filterMap.mp hu
    rcases List.mem_append.mp ((calls_endStream h hg hl during).1.subset hcall) with hm | hm
    · obtain ⟨s, hs, rfl⟩ := List.mem_map.mp hm
      have hm := mem_channels_of_mem_schedule
        (((i.feedback during).handed_sublist [] 0 _).subset hs)
      rw [Fanout.channels_blocks] at hm
      rw [Slot.call, SinkCall.unitOn?] at hunit
      split at hunit
      · next hsc => exact hsc ▸ hm
      · cases hunit
    · obtain ⟨d, -, rfl⟩ := List.mem_map.mp hm
      cases hunit

/-- A unit handed over is one of its pass and of its channel, at the place that the handovers
before it leave to it. -/
theorem handover_place {config : Config} {steps : List Step} {k : Nat} {e : Handover}
    (he : ((fresh config).handovers steps)[k]? = some e) :
    ∃ t b, ((fresh config).intakes 0 steps)[e.pass]? = some t ∧ b ∈ t.blocks ∧
      b.channel = e.channel ∧
      e.rank (((fresh config).handovers steps).take k) < Gop.unitCount (b.share t.gops) ∧
      ((arrivals steps).map AccessUnit.marked)[t.firstOf b +
        e.rank (((fresh config).handovers steps).take k)]? = some e.unit := by
  have hs := sound_fresh config
  have hrank := Handover.getElem?_rank he
  obtain ⟨before, during, t, rfl, hn, ht, hgops, -, hblocks⟩ :=
    exists_intake (pass_lt_of_mem_handovers hs (List.mem_of_getElem? he))
  have hsent : (sentOn e.channel (((fresh config).after before).calls
      ((fresh config).after before).streamsEnded (.endStream :: during)))[e.rank
        (((fresh config).handovers (before ++ .endStream :: during)).take k)]? = some e.unit := by
    rw [← calls_of_stream, sentOn_calls, ← hn, List.getElem?_map]
    exact congrArg (Option.map Handover.unit) hrank
  have hlive : e.channel ∈ ((fresh config).after before).fanout.live := by
    apply mem_live_of_sentOn (hs.after before)
    intro hnil
    rw [hnil] at hsent
    cases hsent
  obtain ⟨b, hb, hc⟩ := Fanout.exists_block hlive
  have hshare : (Gop.flatten (b.share t.gops))[e.rank
      (((fresh config).handovers (before ++ .endStream :: during)).take k)]? = some e.unit := by
    rw [hgops]
    rw [← hc] at hsent
    obtain ⟨rest, hrest⟩ := sentOn_prefix_share (hs.after before) during hb
    rw [← hrest, List.getElem?_append_left (List.getElem?_eq_some_iff.mp hsent).1]
    exact hsent
  have hlt := (List.getElem?_eq_some_iff.mp hshare).1
  rw [Gop.length_flatten] at hlt
  refine ⟨t, b, ht, hblocks ▸ hb, hc, hlt, ?_⟩
  rw [hn] at ht
  rw [Intake.firstOf, Nat.add_assoc]
  exact getElem?_units ht ((t.getElem?_share b hlt).trans hshare)

end Interleaving

end StreamFanout
