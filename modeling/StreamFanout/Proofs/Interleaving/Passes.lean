import StreamFanout.Proofs.Distribution.Verdicts
import StreamFanout.Proofs.Interleaving.Steps

/-!
One pass in the midst of a run. Only its own stops and its being dropped move a pass; whatever else
is done changes the registry that it looks its channels up in. So it goes from stop to stop under
what it meets there, and its calls are decided by the answers and by what the registry held at its
turns.
-/
namespace StreamFanout

namespace StepResult

def pass? : StepResult → Option Nat
  | .waiting n _ => some n
  | .ended n _ => some n
  | .abandoned n => some n
  | _ => none

def call? (n : Nat) : StepResult → Option SinkCall
  | .waiting m call => if m = n then call else none
  | _ => none

def ends (n : Nat) : StepResult → Bool
  | .ended m _ => m = n
  | _ => false

theorem ends_eq_true {n : Nat} {r : StepResult} (h : r.ends n = true) :
    ∃ result, r = .ended n result := by
  cases r with
  | ended m result => exact ⟨result, by rw [of_decide_eq_true h]⟩
  | _ => cases h

theorem call?_eq_none {r : StepResult} {n : Nat} (h : r.pass? ≠ some n) : r.call? n = none := by
  cases r with
  | waiting m call => exact if_neg fun hm => h (congrArg some hm)
  | _ => rfl

theorem call?_waiting (n : Nat) (call : Option SinkCall) : (waiting n call).call? n = call :=
  if_pos rfl

end StepResult

namespace Interleaving

/-- What the steps of a run show, without the log. -/
def shown (i : Interleaving) (steps : List Step) : List StepResult :=
  (i.trace steps).map Logged.value

def calls (i : Interleaving) (n : Nat) (steps : List Step) : List SinkCall :=
  (i.shown steps).filterMap (StepResult.call? n)

def stop? (i : Interleaving) (n : Nat) : Step → Option Stop
  | .resume m a => if m = n then (i.pass? n).map fun p => ⟨p, i.fanout.roster, a⟩ else none
  | _ => none

def stops (i : Interleaving) (n : Nat) : List Step → List Stop
  | [] => []
  | s :: steps => (i.stop? n s).toList ++ stops (i.step s).value.2 n steps

def answers (i : Interleaving) (n : Nat) (steps : List Step) : List Answer :=
  (i.stops n steps).filterMap Stop.answer?

def Ends (i : Interleaving) (n : Nat) (steps : List Step) : Prop :=
  ∃ result, .ended n result ∈ i.shown steps

instance (i : Interleaving) (n : Nat) (steps : List Step) : Decidable (i.Ends n steps) :=
  decidable_of_iff ((i.shown steps).any (StepResult.ends n) = true) <| by
    rw [List.any_eq_true]
    constructor
    · rintro ⟨r, hr, hn⟩
      obtain ⟨result, rfl⟩ := StepResult.ends_eq_true hn
      exact ⟨result, hr⟩
    · rintro ⟨result, hr⟩
      exact ⟨_, hr, decide_eq_true rfl⟩

variable {i : Interleaving} {n : Nat} {p : Pass}

theorem shown_cons (i : Interleaving) (s : Step) (steps : List Step) :
    i.shown (s :: steps) = (i.step s).value.1 :: (i.step s).value.2.shown steps := rfl

theorem stop?_eq_none {s : Step} (h : s.pass? ≠ some n ∨ i.pass? n = none) :
    i.stop? n s = none := by
  cases s with
  | resume m a =>
    rw [stop?]
    split
    · next hm =>
      rcases h with h | h
      · exact absurd (congrArg some hm) h
      · rw [h]
        rfl
    · rfl
  | _ => rfl

theorem stop?_resume (hp : i.pass? n = some p) (a : Answer) :
    i.stop? n (.resume n a) = some ⟨p, i.fanout.roster, a⟩ := by
  rw [stop?, if_pos rfl, hp]
  rfl

theorem calls_cons (i : Interleaving) (n : Nat) (s : Step) (steps : List Step) :
    i.calls n (s :: steps) =
      ((i.step s).value.1.call? n).toList ++ (i.step s).value.2.calls n steps := by
  rw [calls, shown_cons, filterMap_cons_eq]
  rfl

theorem stops_cons (i : Interleaving) (n : Nat) (s : Step) (steps : List Step) :
    i.stops n (s :: steps) = (i.stop? n s).toList ++ (i.step s).value.2.stops n steps := rfl

theorem ends_cons_iff {s : Step} {steps : List Step} :
    i.Ends n (s :: steps) ↔
      (i.step s).value.1.ends n = true ∨ (i.step s).value.2.Ends n steps := by
  unfold Ends
  rw [shown_cons]
  constructor
  · rintro ⟨result, hm⟩
    rcases List.mem_cons.mp hm with he | hm
    · rw [← he]
      exact .inl (decide_eq_true rfl)
    · exact .inr ⟨result, hm⟩
  · rintro (he | ⟨result, hm⟩)
    · obtain ⟨result, he⟩ := StepResult.ends_eq_true he
      exact ⟨result, List.mem_cons.mpr (.inl he.symm)⟩
    · exact ⟨result, List.mem_cons_of_mem _ hm⟩

theorem ends_cons {s : Step} {steps : List Step}
    (hs : ∀ result, (i.step s).value.1 ≠ .ended n result) :
    i.Ends n (s :: steps) ↔ (i.step s).value.2.Ends n steps := by
  rw [ends_cons_iff]
  refine or_iff_right fun he => ?_
  obtain ⟨result, he⟩ := StepResult.ends_eq_true he
  exact hs result he

theorem not_ends_nil (i : Interleaving) (n : Nat) : ¬i.Ends n [] :=
  fun ⟨_, he⟩ => List.not_mem_nil he

theorem Ends.of_after {xs ys : List Step} (h : (i.after xs).Ends n ys) : i.Ends n (xs ++ ys) := by
  obtain ⟨result, hm⟩ := h
  refine ⟨result, ?_⟩
  rw [shown, trace_append, List.map_append]
  exact List.mem_append_right _ hm

variable {s : Step} {r : StepResult × Interleaving}

/-- A step about something else leaves a pass as it is, and shows nothing of it. -/
theorem Takes.other (ht : i.Takes s r) (hn : n < i.streamsEnded) (hs : s.pass? ≠ some n) :
    r.1.pass? ≠ some n ∧ r.2.pass? n = i.pass? n := by
  have hne : n ≠ i.streamsEnded := Nat.ne_of_lt hn
  have other {m : Nat} (hm : some m ≠ some n) : n ≠ m := fun he => hm (congrArg some he.symm)
  cases ht with
  | call c => exact ⟨nofun, rfl⟩
  | empty hg hl =>
    rw [pass?_land_of_ne hne]
    exact ⟨fun he => hne (Option.some.inj he).symm, rfl⟩
  | start ho =>
    rw [pass?_hold_of_ne hne]
    exact ⟨fun he => hne (Option.some.inj he).symm, rfl⟩
  | proceed m a p p' hp hr =>
    rw [pass?_hold_of_ne (other hs)]
    exact ⟨hs, rfl⟩
  | finish m a p plan lanes hp hr =>
    rw [pass?_land_of_ne (other hs)]
    exact ⟨hs, rfl⟩
  | discard m a p gops hp hr =>
    rw [pass?_land_of_ne (other hs)]
    exact ⟨hs, rfl⟩
  | drop m p hp =>
    rw [pass?_land_of_ne (other hs)]
    exact ⟨hs, rfl⟩
  | void s m hs' hp => exact ⟨nofun, rfl⟩

theorem Takes.eq_void (ht : i.Takes s r) (hs : s.pass? = some n) (hp : i.pass? n = none) :
    r = (.void, i) := by
  have hnone (p : Pass) : i.pass? n ≠ some p := by simp [hp]
  cases ht with
  | proceed m a p p' hm hr =>
    cases hs
    exact absurd hm (hnone p)
  | finish m a p plan lanes hm hr =>
    cases hs
    exact absurd hm (hnone p)
  | discard m a p gops hm hr =>
    cases hs
    exact absurd hm (hnone p)
  | drop m p hm =>
    cases hs
    exact absurd hm (hnone p)
  | void s m hm hp' => rfl
  | _ => cases hs

/-- A pass that ends leaves the flight. -/
theorem Takes.pass?_of_ended {result : Except FanoutError Report} (ht : i.Takes s r)
    (he : r.1 = .ended n result) : r.2.pass? n = none := by
  cases ht with
  | empty hg hl =>
    cases he
    rw [pass?_land_self]
  | finish m a p plan lanes hp hr =>
    cases he
    rw [pass?_land_self]
  | discard m a p gops hp hr =>
    cases he
    rw [pass?_land_self]
  | _ => cases he

/-- A step about something else adds nothing to what is seen of a pass. -/
theorem cons_other (hn : n < i.streamsEnded) (hs : s.pass? ≠ some n) (steps : List Step) :
    i.calls n (s :: steps) = (i.step s).value.2.calls n steps ∧
      i.stops n (s :: steps) = (i.step s).value.2.stops n steps ∧
      (i.Ends n (s :: steps) ↔ (i.step s).value.2.Ends n steps) := by
  have hr := ((i.takes_step s).other hn hs).1
  refine ⟨?_, ?_, ?_⟩
  · rw [calls_cons, StepResult.call?_eq_none hr]
    rfl
  · rw [stops_cons, stop?_eq_none (.inl hs)]
    rfl
  · exact ends_cons fun result hm => hr (by rw [hm]; rfl)

/-- Nothing is seen of a pass after it has left the flight. -/
theorem unseen (hn : n < i.streamsEnded) (hp : i.pass? n = none) (steps : List Step) :
    i.calls n steps = [] ∧ i.stops n steps = [] ∧ ¬i.Ends n steps ∧
      (i.after steps).pass? n = none := by
  induction steps generalizing i with
  | nil => exact ⟨rfl, rfl, i.not_ends_nil n, hp⟩
  | cons s steps ih =>
    have ht := i.takes_step s
    by_cases hs : s.pass? = some n
    · have hv := ht.eq_void hs hp
      rw [ends_cons (by rw [hv]; exact nofun), calls_cons, stops_cons, stop?_eq_none (.inr hp),
        after, hv]
      exact ih hn hp
    · obtain ⟨hc, hr, he⟩ := cons_other hn hs steps
      rw [hc, hr, he]
      exact ih (Nat.lt_of_lt_of_le hn ht.streamsEnded_le) ((ht.other hn hs).2.trans hp)

/-- The last step of a pass leaves its last stop. -/
theorem goes_over (hn : n < i.streamsEnded) (hp : i.pass? n = some p) {a : Answer} {r : Progress}
    (hr : (p.resume i.fanout.roster.contains i.fanout.config.silent a).value = r)
    (hover : r.pass? = none) {result : Except FanoutError Report}
    (hres : (i.step (.resume n a)).value.1 = .ended n result)
    (hgone : (i.step (.resume n a)).value.2.pass? n = none) (steps : List Step) :
    let run := .resume n a :: steps
    Goes i.fanout.config.silent (.waiting p) (i.stops n run) r ∧
      p.call?.toList ++ i.calls n run = (i.stops n run).filterMap Stop.call? ++ r.next?.toList ∧
      i.Ends n run ∧ (i.after run).pass? n = none := by
  have hn' := Nat.lt_of_lt_of_le hn (i.takes_resume n a).streamsEnded_le
  obtain ⟨hcalls, hstops, -, hgone'⟩ := unseen hn' hgone steps
  intro run
  have hstops : i.stops n run = [⟨p, i.fanout.roster, a⟩] := by
    rw [stops_cons, hstops, stop?_resume hp]
    rfl
  refine ⟨?_, ?_, ends_cons_iff.mpr (.inl ?_), hgone'⟩
  · rw [hstops]
    exact Goes.of_resume hr (.here r)
  · rw [hstops, calls_cons, hcalls, hres, Progress.next?, hover, filterMap_cons_eq]
    simp [StepResult.call?, Stop.call?]
  · rw [hres]
    exact decide_eq_true rfl

/-- In a run a pass goes from stop to stop. Its calls are those of the stops that it has left and
the one that it has come to, and it has ended when there is no further stop. -/
theorem goes_after (h : i.Sound) (hp : i.pass? n = some p) (steps : List Step) :
    ∃ r, Goes i.fanout.config.silent (.waiting p) (i.stops n steps) r ∧
      p.call?.toList ++ i.calls n steps =
        (i.stops n steps).filterMap Stop.call? ++ r.next?.toList ∧
      (i.Ends n steps ↔ r.pass? = none) ∧
      ∀ q, (i.after steps).pass? n = some q → r = .waiting q := by
  induction steps generalizing i p with
  | nil =>
    refine ⟨.waiting p, .here _, ?_, iff_of_false (i.not_ends_nil n) nofun, fun q hq => ?_⟩
    · exact List.append_nil _
    · exact congrArg Progress.waiting (Option.some.inj (hp.symm.trans hq))
  | cons s steps ih =>
    have hn := h.number_lt n p hp
    by_cases hs : s.pass? = some n
    · rcases step_of_pass hp hs with ⟨a, p', rfl, hr, hstep⟩ | ⟨hgone, hend⟩
      · obtain ⟨r, hgoes, hcalls, hends, hr'⟩ := ih (h.step (.resume n a)) (p := p')
          (by rw [hstep, pass?_hold_self])
        rw [(i.takes_step _).config_eq] at hgoes
        rw [calls_cons, stops_cons, stop?_resume hp, ends_cons (by rw [hstep]; exact nofun)]
        refine ⟨r, Goes.of_resume hr hgoes, ?_, hends, hr'⟩
        rw [hstep, StepResult.call?_waiting, ← hstep, hcalls, Option.toList_some,
          List.singleton_append, filterMap_cons_eq, List.append_assoc]
        rfl
      · rcases hend with ⟨a, result, rfl, hres, hover⟩ | ⟨rfl, hres⟩
        · have hlast : ∃ r, (p.resume i.fanout.roster.contains i.fanout.config.silent a).value = r ∧
              r.pass? = none := by
            rcases hover with ⟨plan, lanes, hr, -⟩ | ⟨gops, hr, -⟩
            · exact ⟨_, hr, rfl⟩
            · exact ⟨_, hr, rfl⟩
          obtain ⟨r, hr, hnone⟩ := hlast
          obtain ⟨hgoes, hcalls, hends, hafter⟩ := goes_over hn hp hr hnone hres hgone steps
          refine ⟨r, hgoes, hcalls, iff_of_true hends hnone, fun q hq => ?_⟩
          cases hafter.symm.trans hq
        · -- a pass that is dropped stays at its stop for ever
          have hn' := Nat.lt_of_lt_of_le hn (i.takes_abandon n).streamsEnded_le
          obtain ⟨hc, hst, he, hafter⟩ := unseen hn' hgone steps
          rw [calls_cons, stops_cons, hc, hst, hres, ends_cons (by rw [hres]; exact nofun)]
          refine ⟨.waiting p, .here _, List.append_nil _, iff_of_false he nofun, fun q hq => ?_⟩
          cases hafter.symm.trans hq
    · obtain ⟨hc, hr, he⟩ := cons_other hn hs steps
      obtain ⟨r, hgoes, hcalls, hends, hafter⟩ :=
        ih (h.step s) (((i.takes_step s).other hn hs).2.trans hp)
      rw [(i.takes_step s).config_eq] at hgoes
      rw [hc, hr, he]
      exact ⟨r, hgoes, hcalls, hends, hafter⟩

/-- A pass that is not dropped ends: every stop that it leaves leaves fewer stops before it, and
whatever else is done leaves these as they are. -/
theorem ends_of_resumes (h : i.Sound) (hp : i.pass? n = some p) {steps : List Step}
    (hd : .abandon n ∉ steps) (hk : p.stepsLeft ≤ steps.countP (·.pass? = some n)) :
    i.Ends n steps := by
  induction steps generalizing i p with
  | nil => exact absurd hk (Nat.not_le.mpr p.stepsLeft_pos)
  | cons s steps ih =>
    obtain ⟨hs, hlater⟩ := not_or.mp (hd ∘ List.mem_cons.mpr)
    by_cases hn : s.pass? = some n
    · rw [List.countP_cons_of_pos (by simpa using hn)] at hk
      rcases step_of_pass hp hn with ⟨a, p', rfl, hr, hstep⟩ | ⟨-, hend⟩
      · have hless : p'.stepsLeft < p.stepsLeft := by
          have hlt := Pass.stepsLeft_resume_lt i.fanout.roster.contains i.fanout.config.silent a p
          rwa [hr] at hlt
        rw [ends_cons (by rw [hstep]; exact nofun)]
        exact ih (h.step _) (by rw [hstep, pass?_hold_self]) hlater (by omega)
      · rcases hend with ⟨a, result, rfl, hres, -⟩ | ⟨rfl, -⟩
        · exact ends_cons_iff.mpr (.inl (by rw [hres]; exact decide_eq_true rfl))
        · exact absurd rfl hs
    · rw [List.countP_cons_of_neg (by simpa using hn)] at hk
      obtain ⟨-, -, he⟩ := cons_other (h.number_lt n p hp) hn steps
      rw [he]
      exact ih (h.step s) (((i.takes_step s).other (h.number_lt n p hp) hn).2.trans hp) hlater hk

/-- Only passes of streams that have ended show anything. -/
theorem Takes.lt_of_pass? (h : i.Sound) (ht : i.Takes s r) (hp : r.1.pass? = some n) :
    n < r.2.streamsEnded := by
  cases ht with
  | empty hg hl =>
    cases hp
    exact Nat.lt_succ_self _
  | start ho =>
    cases hp
    exact Nat.lt_succ_self _
  | proceed m a p p' hm hr =>
    cases hp
    exact h.number_lt _ p hm
  | finish m a p plan lanes hm hr =>
    cases hp
    exact h.number_lt _ p hm
  | discard m a p gops hm hr =>
    cases hp
    exact h.number_lt _ p hm
  | drop m p hm =>
    cases hp
    exact h.number_lt _ p hm
  | _ => cases hp

theorem lt_of_mem_shown {result : StepResult} (h : i.Sound) {steps : List Step}
    (hm : result ∈ i.shown steps) (hp : result.pass? = some n) :
    n < (i.after steps).streamsEnded := by
  induction steps generalizing i with
  | nil => cases hm
  | cons s steps ih =>
    rw [shown_cons] at hm
    rcases List.mem_cons.mp hm with he | hm
    · exact Nat.lt_of_lt_of_le ((i.takes_step s).lt_of_pass? h (he ▸ hp))
        (streamsEnded_le_after _ steps)
    · exact ih (h.step s) hm

theorem calls_append (i : Interleaving) (n : Nat) (xs ys : List Step) :
    i.calls n (xs ++ ys) = i.calls n xs ++ (i.after xs).calls n ys := by
  unfold calls shown
  rw [trace_append, List.map_append, List.filterMap_append]

theorem stops_append (i : Interleaving) (n : Nat) (xs ys : List Step) :
    i.stops n (xs ++ ys) = i.stops n xs ++ (i.after xs).stops n ys := by
  induction xs generalizing i with
  | nil => rfl
  | cons s xs ih => rw [List.cons_append, stops_cons, stops_cons, ih, List.append_assoc]; rfl

theorem calls_before (h : i.Sound) (steps : List Step) :
    i.calls (i.after steps).streamsEnded steps = [] := by
  refine List.filterMap_eq_nil_iff.mpr fun result hm => ?_
  cases result with
  | waiting m call =>
    exact if_neg fun he => Nat.lt_irrefl _ (he ▸ lt_of_mem_shown h hm rfl)
  | _ => rfl

def feedback (i : Interleaving) (during : List Step) : Feedback :=
  .of (i.stops i.streamsEnded (.endStream :: during))

section

variable {during : List Step}

theorem stops_endStream (i : Interleaving) (n : Nat) (during : List Step) :
    i.stops n (.endStream :: during) = (i.step .endStream).value.2.stops n during := rfl

/-- In a run a pass goes from its opening from stop to stop. -/
theorem goes_endStream (h : i.Sound) (ho : i.fanout.live = [] ∨ i.fanout.grouping.groups ≠ [])
    (during : List Step) :
    ∃ r, Goes i.fanout.config.silent (.waiting i.fanout.opening)
        (i.stops i.streamsEnded (.endStream :: during)) r ∧
      i.calls i.streamsEnded (.endStream :: during) =
        (i.stops i.streamsEnded (.endStream :: during)).filterMap Stop.call? ++ r.next?.toList ∧
      (i.Ends i.streamsEnded (.endStream :: during) ↔ r.pass? = none) ∧
      ∀ q, (i.after (.endStream :: during)).pass? i.streamsEnded = some q → r = .waiting q := by
  have hstep := step_endStream ho
  have h' := h.step .endStream
  have hpass : (i.step .endStream).value.2.pass? i.streamsEnded = some i.fanout.opening := by
    rw [hstep, pass?_hold_self]
  obtain ⟨r, hgoes, hcalls, hends, hafter⟩ := goes_after h' hpass during
  rw [(i.takes_step _).config_eq] at hgoes
  refine ⟨r, hgoes, ?_, ?_, hafter⟩
  · rw [calls_cons, stops_endStream, ← hcalls]
    congr 1
    rw [hstep, StepResult.call?_waiting]
  · rw [ends_cons (by rw [hstep]; exact nofun)]
    exact hends

/-- The calls of a pass are the first of those that its feedback tells, and all of them when it has
ended. -/
theorem calls_of_ahead (h : i.Sound) (ho : i.fanout.live = [] ∨ i.fanout.grouping.groups ≠ [])
    {bound : Nat} {slots : List Slot} {ends : List Channel}
    (hr : ∀ fb, i.fanout.opening.Ahead fb bound i.fanout.live slots ends)
    (hturns : (Slot.turns slots).Nodup) (during : List Step) :
    let whole := Pass.calls (i.feedback during) 0 slots ends
    i.calls i.streamsEnded (.endStream :: during) <+: whole ∧
      (i.Ends i.streamsEnded (.endStream :: during) →
        i.calls i.streamsEnded (.endStream :: during) = whole) := by
  intro whole
  obtain ⟨r, hgoes, hcalls, hends, -⟩ := goes_endStream h ho during
  have hr : (Progress.waiting i.fanout.opening).Ahead (i.feedback during) bound i.fanout.live slots
      ends := hr _
  have hs : (Progress.waiting i.fanout.opening).InStep := i.fanout.inStep_opening
  have hlive := hgoes.live_of_found h.live_nodup hr hs hturns
  have hanswer : ∀ j a, ((i.stops i.streamsEnded (.endStream :: during)).filterMap
      Stop.answer?)[j]? = some a → (i.feedback during).answer (0 + j) = a := by
    intro j a hj
    show ((i.stops i.streamsEnded (.endStream :: during)).filterMap Stop.answer?)[0 + j]?.getD _ = a
    rw [Nat.zero_add, hj]
    rfl
  obtain ⟨slots', ends', hahead, hwhole⟩ := hgoes.calls_eq h.live_nodup hlive hanswer hr hs
  obtain ⟨hfirst, hover⟩ := hahead.calls_eq h.live_nodup (hgoes.inStep hs)
    (0 + ((i.stops i.streamsEnded (.endStream :: during)).filterMap Stop.answer?).length)
  refine ⟨?_, fun he => ?_⟩
  · rw [hcalls, show whole = _ from hwhole]
    exact (List.prefix_append_right_inj _).mpr hfirst
  · have hnone := hends.mp he
    rw [hcalls, show whole = _ from hwhole, hover hnone, Progress.next?, hnone]
    rfl

/-- Without groups or without channels no call is made. -/
theorem calls_endStream_vain (h : i.Sound)
    (hv : i.fanout.grouping.groups = [] ∨ i.fanout.live = []) (during : List Step) :
    i.calls i.streamsEnded (.endStream :: during) = [] := by
  by_cases hl : i.fanout.live = []
  · have hr (fb : Feedback) : i.fanout.opening.Ahead fb 0 i.fanout.live [] [] := by
      rw [Fanout.opening, if_pos hl]
      exact ⟨rfl, rfl⟩
    exact List.prefix_nil.mp (calls_of_ahead h (.inl hl) hr List.nodup_nil during).1
  · have hg := hv.resolve_right hl
    rw [calls_cons, step_endStream_empty hg hl]
    exact (unseen (Nat.lt_succ_self _) (by rw [pass?_land_self]) during).1

/-- The calls after an end of stream are the pushes of the schedule that the feedback leaves, and
then the ends of stream. -/
theorem calls_endStream (h : i.Sound) (hg : i.fanout.grouping.groups ≠ [])
    (hl : i.fanout.live ≠ []) (during : List Step) :
    let whole := Pass.calls (i.feedback during) 0
      (schedule i.fanout.blocks i.fanout.grouping.groups) i.fanout.live
    i.calls i.streamsEnded (.endStream :: during) <+: whole ∧
      (i.Ends i.streamsEnded (.endStream :: during) →
        i.calls i.streamsEnded (.endStream :: during) = whole) :=
  calls_of_ahead h (.inr hg) (Fanout.opening_ahead hl)
    (nodup_turns_schedule (Fanout.nodup_blocks h.live_nodup) _) during

theorem calls_of_ends (h : i.Sound) (hg : i.fanout.grouping.groups ≠ [])
    (hl : i.fanout.live ≠ []) (he : i.Ends i.streamsEnded (.endStream :: during)) :
    i.calls i.streamsEnded (.endStream :: during) =
      Pass.calls (i.feedback during) 0 (schedule i.fanout.blocks i.fanout.grouping.groups)
        i.fanout.live :=
  (calls_endStream h hg hl during).2 he

/-- While a pass is in flight all of its calls were answered but the one that it has come to, and
all of them when it is over. -/
theorem length_calls (h : i.Sound) (ho : i.fanout.live = [] ∨ i.fanout.grouping.groups ≠ [])
    (during : List Step) :
    let made := (i.calls i.streamsEnded (.endStream :: during)).length
    let answered := (i.answers i.streamsEnded (.endStream :: during)).length
    answered ≤ made ∧ made ≤ answered + 1 ∧
      (i.Ends i.streamsEnded (.endStream :: during) → made = answered) ∧
      ∀ q, (i.after (.endStream :: during)).pass? i.streamsEnded = some q →
        made = answered + q.call?.toList.length := by
  intro made answered
  obtain ⟨r, -, hcalls, hends, hafter⟩ := goes_endStream h ho during
  have hsame (stops : List Stop) : (stops.filterMap Stop.answer?).length =
      (stops.filterMap Stop.call?).length := by
    induction stops with
    | nil => rfl
    | cons s stops ih =>
      cases hc : s.call? with
      | none =>
        have ha : s.answer? = none := by rw [Stop.answer?, hc]; rfl
        rw [List.filterMap_cons_none hc, List.filterMap_cons_none ha, ih]
      | some call =>
        have ha : s.answer? = some s.reply.answer := by rw [Stop.answer?, hc]; rfl
        rw [List.filterMap_cons_some hc, List.filterMap_cons_some ha, List.length_cons,
          List.length_cons, ih]
  have hmade : made = answered + r.next?.toList.length := by
    show (i.calls _ _).length = (i.answers _ _).length + _
    rw [hcalls, answers, hsame, List.length_append]
  have hone : r.next?.toList.length ≤ 1 := by
    cases r.next? with
    | none => exact Nat.zero_le _
    | some call => exact Nat.le_refl _
  refine ⟨by omega, by omega, fun he => ?_, fun q hq => ?_⟩
  · rw [hmade, Progress.next?, hends.mp he]
    rfl
  · rw [hmade, hafter q hq]
    rfl

end

end Interleaving

end StreamFanout
