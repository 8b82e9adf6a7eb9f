import StreamFanout.Proofs.Alike
import StreamFanout.Proofs.Interleaving.Streams

/-!
Runs seen by one party. A pass depends on the rest of a run only through the channels that it
looks up, and the calls of the host depend on passes not at all: each party sees the same when the
steps of the others are left out.
-/
namespace StreamFanout

/-- The host may call this while a pass over some channels is under way: it takes none of these
channels away, and reads no counter that the pass will change. -/
def HostCall.Overlaps (channels : List Channel) : HostCall → Prop
  | .release c => c ∉ channels
  | .stats => False
  | _ => True

namespace Step

def isCall : Step → Bool
  | .call _ => true
  | _ => false

/-- The steps while a pass over some channels is under way: no other stream ends. -/
def Overlaps (channels : List Channel) : Step → Prop
  | .call c => c.Overlaps channels
  | .endStream => False
  | _ => True

end Step

namespace StepResult

def isCalled : StepResult → Bool
  | .called _ => true
  | _ => false

end StepResult

namespace Interleaving

/-- Steps that a party does not see may be left out: it sees the same of a run without them. `R`
relates the states of both runs, and `own` are the steps that the party sees. -/
theorem trace_filter (R : Interleaving → Interleaving → Prop) (allowed : Step → Prop)
    (own : Step → Bool) (seen : StepResult → Bool)
    (hown : ∀ i i' s, R i i' → allowed s → own s = true →
      (i.step s).value.1 = (i'.step s).value.1 ∧ (i.step s).log = (i'.step s).log ∧
        R (i.step s).value.2 (i'.step s).value.2)
    (hother : ∀ i i' s, R i i' → allowed s → own s = false →
      seen (i.step s).value.1 = false ∧ R (i.step s).value.2 i')
    {i i' : Interleaving} (h : R i i') {steps : List Step} (ha : ∀ s ∈ steps, allowed s) :
    (i.trace steps).filter (seen ·.value) =
        (i'.trace (steps.filter own)).filter (seen ·.value) ∧
      R (i.after steps) (i'.after (steps.filter own)) := by
  induction steps generalizing i i' with
  | nil => exact ⟨rfl, h⟩
  | cons s steps ih =>
    have hs := ha s List.mem_cons_self
    have hsteps : ∀ t ∈ steps, allowed t := fun t ht => ha t (List.mem_cons_of_mem _ ht)
    cases ho : own s with
    | true =>
      obtain ⟨hvalue, hlog, hnext⟩ := hown i i' s h hs ho
      obtain ⟨htrace, hafter⟩ := ih hnext hsteps
      rw [List.filter_cons_of_pos ho]
      refine ⟨?_, hafter⟩
      rw [trace, trace, List.filter_cons, List.filter_cons, htrace, hvalue, hlog]
    | false =>
      obtain ⟨hunseen, hnext⟩ := hother i i' s h hs ho
      obtain ⟨htrace, hafter⟩ := ih hnext hsteps
      rw [List.filter_cons_of_neg (by rw [ho]; exact Bool.false_ne_true)]
      refine ⟨?_, hafter⟩
      rw [trace, List.filter_cons_of_neg (by rw [hunseen]; exact Bool.false_ne_true), htrace]

variable {i i' : Interleaving} {n : Nat} {p : Pass} {channels : List Channel}

/-- Passes leave the intake of the host as it is. -/
theorem intake_step (s : Step) (hs : s.isCall = false) (he : s ≠ .endStream) :
    (i.step s).value.1.isCalled = false ∧
      (i.step s).value.2.fanout.intake = i.fanout.intake := by
  cases s with
  | call c => cases hs
  | endStream => exact absurd rfl he
  | resume n a =>
    have ht := i.takes_resume n a
    generalize (i.step (.resume n a)).value = r at ht
    cases ht <;> exact ⟨rfl, rfl⟩
  | abandon n =>
    have ht := i.takes_abandon n
    generalize (i.step (.abandon n)).value = r at ht
    cases ht <;> exact ⟨rfl, rfl⟩

/-- What the host sees of a run does not depend on the passes. -/
theorem host_view (h : i.fanout.intake = i'.fanout.intake) {steps : List Step}
    (ha : ∀ s ∈ steps, s.Overlaps channels) :
    (i.trace steps).filter (·.value.isCalled) =
        (i'.trace (steps.filter Step.isCall)).filter (·.value.isCalled) ∧
      (i.after steps).fanout.intake = (i'.after (steps.filter Step.isCall)).fanout.intake := by
  apply trace_filter (fun i i' => i.fanout.intake = i'.fanout.intake) (Step.Overlaps channels)
    Step.isCall StepResult.isCalled ?_ ?_ h ha
  · intro i i' s h hs ho
    cases s with
    | call c =>
      have hc : c ≠ .stats := by
        rintro rfl
        exact hs
      have halike := Fanout.alike_perform h hc
      refine ⟨congrArg StepResult.called halike.value_eq, ?_, halike.intake_eq⟩
      simp only [step, Logged.log_bind, halike.log_eq, Logged.log_pure]
    | _ => cases ho
  · intro i i' s h hs ho
    have he : s ≠ .endStream := by
      rintro rfl
      exact hs
    obtain ⟨hunseen, hintake⟩ := i.intake_step s ho he
    exact ⟨hunseen, hintake.trans h⟩

/-- In both runs the `n`-th pass stands at the same stop and finds its channels live. What passes
have counted is the same where the runs have no steps of other passes. -/
structure Abreast (channels : List Channel) (n : Nat) (alone : Prop) (i i' : Interleaving) :
    Prop where
  sound : i.Sound
  sound' : i'.Sound
  pass_eq : i.pass? n = i'.pass? n
  lt : n < i.streamsEnded
  config_eq : i.fanout.config = i'.fanout.config
  scope : ∀ p, i.pass? n = some p → ∀ l ∈ p.lanes, l.channel ∈ channels
  live : ∀ c ∈ channels, c ∈ i.fanout.live
  live' : ∀ c ∈ channels, c ∈ i'.fanout.live
  outcomes_eq : alone → i.fanout.outcomes = i'.fanout.outcomes

variable {alone : Prop}

/-- What a step about the `n`-th pass shows and logs, and how it leaves this pass, is the same in
both runs. -/
theorem Abreast.step_eq (h : Abreast channels n alone i i') {s : Step} (hs : s.pass? = some n) :
    ((i.step s).value.1 = (i'.step s).value.1 ∧ (i.step s).log = (i'.step s).log) ∧
      (i.step s).value.2.pass? n = (i'.step s).value.2.pass? n ∧
      (∀ p, (i.step s).value.2.pass? n = some p → ∀ l ∈ p.lanes, l.channel ∈ channels) ∧
      (alone → (i.step s).value.2.fanout.outcomes = (i'.step s).value.2.fanout.outcomes) := by
  cases hp : i.pass? n with
  | none =>
    have hp' : i'.pass? n = none := h.pass_eq ▸ hp
    rw [step_of_no_flight hs hp, step_of_no_flight hs hp']
    exact ⟨⟨rfl, rfl⟩, h.pass_eq, h.scope, h.outcomes_eq⟩
  | some p =>
    have hp' : i'.pass? n = some p := h.pass_eq ▸ hp
    cases s with
    | resume m a =>
      cases hs
      obtain ⟨hvalue, hlog⟩ := step_of_flight hp a
      obtain ⟨hvalue', hlog'⟩ := step_of_flight hp' a
      -- A pass looks at nothing of the fanouts but whether its own channels are live.
      have hlive : ∀ l ∈ p.lanes,
          i.fanout.roster.contains l.channel = i'.fanout.roster.contains l.channel := by
        intro l hl
        have hc := h.scope p hp l hl
        exact (Roster.contains_iff.mpr (h.live _ hc)).trans
          (Roster.contains_iff.mpr (h.live' _ hc)).symm
      obtain ⟨hsame, hsamelog, hout⟩ := Fanout.resume_congr h.config_eq hlive a
      rw [hvalue, hvalue', hlog, hlog', ← hsame, pass?_follow, pass?_follow, fanout_follow,
        fanout_follow]
      refine ⟨⟨?_, hsamelog⟩, rfl, fun q hq l hl => ?_, fun hal => hout (h.outcomes_eq hal)⟩
      · cases (i.fanout.resume p a).value.1 <;> rfl
      · rcases i.fanout.resume_cases p a with
          ⟨p', hr, hf⟩ | ⟨plan, lanes, hr, hf⟩ | ⟨gops, hr, hf⟩
        · rw [hf] at hq
          cases hq
          obtain ⟨m, hm, he⟩ := Pass.exists_lane_of_resume _ hr hl
          exact he ▸ h.scope p hp m hm
        · rw [hf] at hq
          cases hq
        · rw [hf] at hq
          cases hq
    | abandon m =>
      cases hs
      have hgone (j : Interleaving) : (j.land n).pass? n = none := by
        rw [pass?_land_self]
      rw [step_of_abandon hp, step_of_abandon hp']
      refine ⟨⟨rfl, rfl⟩, (hgone i).trans (hgone i').symm, fun q hq => ?_, h.outcomes_eq⟩
      cases (hgone i).symm.trans hq
    | _ => cases hs

/-- The steps of a pass show and log the same wherever its channels are live. -/
theorem Abreast.own (h : Abreast channels n alone i i') {s : Step} (hs : s.pass? = some n) :
    ((i.step s).value.1 = (i'.step s).value.1 ∧ (i.step s).log = (i'.step s).log) ∧
      Abreast channels n alone (i.step s).value.2 (i'.step s).value.2 := by
  have ht := i.takes_step s
  have hlive {i : Interleaving} (hl : ∀ c ∈ channels, c ∈ i.fanout.live) :
      ∀ c ∈ channels, c ∈ (i.step s).value.2.fanout.live := fun c hc =>
    mem_live_step (hl c hc) (by rintro rfl; cases hs)
  obtain ⟨hshown, hpass, hscope, hout⟩ := h.step_eq hs
  exact ⟨hshown, {
    sound := h.sound.step s
    sound' := h.sound'.step s
    pass_eq := hpass
    lt := Nat.lt_of_lt_of_le h.lt ht.streamsEnded_le
    config_eq := by
      rw [ht.config_eq, (i'.takes_step s).config_eq, h.config_eq]
    scope := hscope
    live := hlive h.live
    live' := hlive h.live'
    outcomes_eq := hout }⟩

/-- The other steps show nothing of a pass and leave it as it is. -/
theorem Abreast.other (h : Abreast channels n alone i i') {s : Step} (ho : s.Overlaps channels)
    (hs : s.pass? ≠ some n) (ha : alone → s.pass? = none) :
    (i.step s).value.1.pass? ≠ some n ∧ Abreast channels n alone (i.step s).value.2 i' := by
  have ht := i.takes_step s
  obtain ⟨hunseen, hpass⟩ := ht.other h.lt hs
  refine ⟨hunseen, {
    sound := h.sound.step s
    sound' := h.sound'
    pass_eq := hpass.trans h.pass_eq
    lt := Nat.lt_of_lt_of_le h.lt ht.streamsEnded_le
    config_eq := ht.config_eq.trans h.config_eq
    scope := fun p hp => h.scope p (hpass ▸ hp)
    live := fun c hc => ?_
    live' := h.live'
    outcomes_eq := fun hal => ?_ }⟩
  · refine mem_live_step (h.live c hc) ?_
    rintro rfl
    exact ho hc
  · rw [← h.outcomes_eq hal]
    cases s with
    | call c => exact Fanout.outcomes_perform i.fanout c
    | endStream => exact ho.elim
    | resume m a => cases ha hal
    | abandon m => cases ha hal

/-- What is seen of a pass does not depend on the steps of others. -/
theorem pass_view (h : Abreast channels n alone i i') {steps : List Step}
    (ho : ∀ s ∈ steps, s.Overlaps channels)
    (ha : alone → ∀ s ∈ steps, ∀ m, s.pass? = some m → m = n) :
    (i.trace steps).filter (·.value.pass? = some n) =
        (i'.trace (steps.filter (·.pass? = some n))).filter (·.value.pass? = some n) ∧
      Abreast channels n alone (i.after steps) (i'.after (steps.filter (·.pass? = some n))) := by
  apply trace_filter (Abreast channels n alone)
    (fun s => s.Overlaps channels ∧ (alone → ∀ m, s.pass? = some m → m = n))
    (fun s => decide (s.pass? = some n)) (fun r => decide (r.pass? = some n)) ?_ ?_ h
    fun s hs => ⟨ho s hs, fun hal => ha hal s hs⟩
  · intro i i' s h _ hs
    obtain ⟨⟨hvalue, hlog⟩, hnext⟩ := h.own (of_decide_eq_true hs)
    exact ⟨hvalue, hlog, hnext⟩
  · intro i i' s h hs hn
    have hn : s.pass? ≠ some n := of_decide_eq_false hn
    have hnone : alone → s.pass? = none := by
      intro hal
      cases hp : s.pass? with
      | none => rfl
      | some m => exact absurd (hs.2 hal m hp ▸ hp) hn
    obtain ⟨hunseen, hnext⟩ := h.other hs.1 hn hnone
    exact ⟨decide_eq_false hunseen, hnext⟩

end Interleaving

end StreamFanout
