import StreamFanout.Proofs.Distribution.Outstanding
import StreamFanout.Proofs.Interleaving.Handovers

/-!
What is outstanding on a channel in the course of a run. The units that a pass has sent on a
channel and those that it has still to push there are the units of its block, until the channel is
given up; from then on nothing is pushed on it.
-/
namespace StreamFanout

theorem sentOn_call? (c : Channel) (p : Pass) : sentOn c p.call?.toList = (p.unitOn? c).toList := by
  rw [Pass.unitOn?]
  cases p.call? with
  | none => rfl
  | some call => rw [Option.toList_some, sentOn_cons]; exact List.append_nil _

namespace Interleaving

variable {i : Interleaving} {n : Nat} {p : Pass} {c : Channel}

theorem outstanding_after (h : i.Sound) (hp : i.pass? n = some p)
    (hd : (p.blocks.map Block.channel).Nodup) (c : Channel) (steps : List Step) :
    sentOn c (i.calls n steps) <+: p.remainder c ∧
      ∀ q, (i.after steps).pass? n = some q → q.outstanding c ≠ [] →
        p.outstanding c ≠ [] ∧ sentOn c (i.calls n steps) ++ q.remainder c = p.remainder c := by
  induction steps generalizing i p with
  | nil =>
    refine ⟨List.nil_prefix, fun q hq hne => ?_⟩
    cases hp.symm.trans hq
    exact ⟨hne, rfl⟩
  | cons s steps ih =>
    have hn := h.number_lt n p hp
    have h' := h.step s
    by_cases hs : s.pass? = some n
    · rw [calls_cons]
      rcases step_of_pass hp hs with ⟨a, p', rfl, hr, hstep⟩ | ⟨hgone, hend⟩
      · have hlanes : (p.lanes.map Lane.channel).Nodup := by rwa [Pass.channels_eq_blocks]
        have hout := Pass.outstanding_resume i.fanout.config.silent i.fanout.roster.contains c
          hlanes a
        have hblocks := Pass.blocks_resume i.fanout.roster.contains i.fanout.config.silent p a
        rw [hr] at hout hblocks
        obtain ⟨hpre, hq⟩ := ih (p := p') h' (by rw [hstep, pass?_hold_self])
          (by rwa [show p'.blocks = p.blocks from hblocks])
        rw [hstep] at hpre hq ⊢
        rw [StepResult.call?_waiting, sentOn_append, sentOn_call?]
        -- The pass goes on with what it has of the channel, or has given it up with this step: then
        -- nothing follows, since no step of a pass gives it a channel back.
        rcases hout with hout | hout
        · have hrest : p.remainder c = (p'.unitOn? c).toList ++ p'.remainder c :=
            hout.symm.trans (p'.outstanding_eq c)
          rw [hrest]
          refine ⟨(List.prefix_append_right_inj _).mpr hpre, fun q hafter hne => ?_⟩
          obtain ⟨hne', heq⟩ := hq q (hstep ▸ hafter) hne
          refine ⟨fun hnil => ?_, by rw [List.append_assoc, heq]⟩
          rw [Pass.outstanding_eq, hrest, ← p'.outstanding_eq c] at hnil
          exact hne' (List.append_eq_nil_iff.mp hnil).2
        · have hout : p'.outstanding c = [] := hout
          obtain ⟨hcall, hnil⟩ := Pass.remainder_eq_nil hout
          rw [hnil, List.prefix_nil] at hpre
          rw [hcall, hpre]
          refine ⟨List.nil_prefix, fun q hafter hne => ?_⟩
          exact absurd hout (hq q (hstep ▸ hafter) hne).1
      · obtain ⟨hcalls, -, -, hnone⟩ :=
          unseen (Nat.lt_of_lt_of_le hn (i.takes_step s).streamsEnded_le) hgone steps
        have hcall : (i.step s).value.1.call? n = none := by
          rcases hend with ⟨a, result, -, he, -⟩ | ⟨-, he⟩
          · rw [he]
            rfl
          · rw [he]
            rfl
        rw [hcall, hcalls]
        refine ⟨List.nil_prefix, fun q hq => ?_⟩
        cases hnone.symm.trans hq
    · rw [(cons_other hn hs steps).1]
      exact ih h' (((i.takes_step s).other hn hs).2.trans hp) hd

/-- Of a channel that is not given up the pass has sent and has still to push the whole block. -/
theorem outstanding_endStream (h : i.Sound) {during : List Step}
    (hp : (i.after (.endStream :: during)).pass? i.streamsEnded = some p)
    (hne : p.outstanding c ≠ []) :
    i.fanout.grouping.groups ≠ [] ∧ i.fanout.live ≠ [] ∧ ∃ b ∈ i.fanout.blocks, b.channel = c ∧
      sentOn c (i.calls i.streamsEnded (.endStream :: during)) ++ p.remainder c =
        Gop.flatten (b.share i.fanout.grouping.groups) := by
  have ho : i.fanout.live = [] ∨ i.fanout.grouping.groups ≠ [] := by
    refine Classical.byContradiction fun hv => ?_
    obtain ⟨hl, hg⟩ := not_or.mp hv
    have hstep := step_endStream_empty (Classical.not_not.mp hg) hl
    have hnone := (unseen (i.lt_streamsEnded []) (by
      show (i.step .endStream).value.2.pass? _ = none
      rw [hstep, pass?_land_self]) during).2.2.2
    cases hnone.symm.trans hp
  have hstep := step_endStream ho
  have hopen : (i.step .endStream).value.2.pass? i.streamsEnded = some i.fanout.opening := by
    rw [hstep, pass?_hold_self]
  have hd : (i.fanout.opening.blocks.map Block.channel).Nodup := by
    by_cases hl : i.fanout.live = []
    · rw [Fanout.opening, if_pos hl]
      exact List.nodup_nil
    · rw [Fanout.blocks_opening hl]
      exact Fanout.nodup_blocks h.live_nodup
  obtain ⟨hne₀, heq⟩ := (outstanding_after (h.step .endStream) hopen hd c during).2 p hp hne
  have hl : i.fanout.live ≠ [] := fun hl => hne₀ (by rw [Fanout.opening, if_pos hl]; rfl)
  have hg := ho.resolve_left hl
  have hc := Pass.mem_channels_of_outstanding hne₀
  rw [Pass.channels_eq_blocks, Fanout.blocks_opening hl] at hc
  obtain ⟨b, hb, rfl⟩ := List.mem_map.mp hc
  refine ⟨hg, hl, b, hb, rfl, ?_⟩
  have hwhole : i.fanout.opening.outstanding b.channel =
      Gop.flatten (b.share i.fanout.grouping.groups) := by
    obtain ⟨hu, hq⟩ := Pass.start_untouched i.fanout.plan i.fanout.lanes b.channel
    rw [Fanout.opening_of_live hl, Pass.outstanding, hu, hq, Fanout.lanes,
      Lane.queueOn_fresh (Fanout.nodup_blocks h.live_nodup) hb]
    rfl
  rw [calls_cons, hstep, StepResult.call?_waiting, sentOn_append, sentOn_call?, List.append_assoc,
    ← hstep, heq, ← Pass.outstanding_eq, hwhole]

end Interleaving

end StreamFanout
