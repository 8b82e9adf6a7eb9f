import StreamFanout.Proofs.Interleaving.Views
import StreamFanout.Proofs.Refusals

/-!
Runs without their failed calls. A run from which the refused calls, and the ends of stream that
had nothing to distribute, are left out shows and counts what it showed with them. An end of stream
that is left out takes up no number any more, so later passes have lower numbers.
-/
namespace StreamFanout

namespace StepResult

/-- The step came to nothing: a call was refused, a stream had no group, or there was no such pass
in flight. -/
def failed : StepResult → Bool
  | called r => r.isRefusal
  | ended _ (.error .noData) => true
  | void => true
  | _ => false

/-- The number of the stream that ended with nothing to distribute. -/
def emptyStream? : StepResult → Option Nat
  | ended n (.error .noData) => some n
  | _ => none

def unitsRefused : StepResult → Nat
  | called r => r.unitsRefused
  | _ => 0

/-- The result under other numbers for passes, and but for the refused units. -/
def thinned (number : Nat → Nat) : StepResult → StepResult
  | called r => called r.unrefused
  | waiting n call => waiting (number n) call
  | ended n result => ended (number n) result
  | abandoned n => abandoned (number n)
  | void => void

theorem failed_of_emptyStream? {r : StepResult} {n : Nat} (h : r.emptyStream? = some n) :
    r.failed = true := by
  unfold emptyStream? at h
  split at h
  · rfl
  · cases h

end StepResult

/-- The step under other numbers for passes, without the units that it offers in vain. -/
def Step.thinned (number : Nat → Nat) : Step → Step
  | call c => call c.unrefused
  | endStream => endStream
  | resume n a => resume (number n) a
  | abandon n => abandon (number n)

/-- The number of a stream when the vacant numbers below it are not given. -/
def renumber (vacant : List Nat) (n : Nat) : Nat :=
  (List.range n).countP (· ∉ vacant)

theorem renumber_succ (vacant : List Nat) (n : Nat) :
    renumber vacant (n + 1) = renumber vacant n + if n ∈ vacant then 0 else 1 := by
  by_cases h : n ∈ vacant <;> simp [renumber, List.range_succ, h]

theorem renumber_lt {vacant : List Nat} {m n : Nat} (hm : m ∉ vacant) (h : m < n) :
    renumber vacant m < renumber vacant n := by
  induction n with
  | zero => omega
  | succ n ih =>
    rw [renumber_succ]
    rcases Nat.lt_or_eq_of_le (Nat.le_of_lt_succ h) with h | rfl
    · have := ih h
      omega
    · simp [hm]

example : (List.range 5).map (renumber [0, 3]) = [0, 0, 1, 2, 2] := by decide

theorem renumber_inj {vacant : List Nat} {m n : Nat} (hm : m ∉ vacant) (hn : n ∉ vacant) :
    renumber vacant m = renumber vacant n ↔ m = n := by
  constructor
  · intro h
    rcases Nat.lt_trichotomy m n with hlt | heq | hlt
    · have := renumber_lt hm hlt
      omega
    · exact heq
    · have := renumber_lt hn hlt
      omega
  · rintro rfl
    rfl

namespace Interleaving

def record (i : Interleaving) : List Step → List (StepResult × Stats)
  | [] => []
  | s :: steps =>
    let taken := (i.step s).value
    (taken.1, taken.2.fanout.stats) :: taken.2.record steps

def succeeding (i : Interleaving) : List Step → List Step
  | [] => []
  | s :: steps =>
    let taken := (i.step s).value
    if taken.1.failed then taken.2.succeeding steps else s :: taken.2.succeeding steps

def emptyStreams (i : Interleaving) (steps : List Step) : List Nat :=
  (i.record steps).filterMap (·.1.emptyStream?)

theorem emptyStreams_cons (i : Interleaving) (s : Step) (steps : List Step) :
    i.emptyStreams (s :: steps) =
      (i.step s).value.1.emptyStream?.toList ++ (i.step s).value.2.emptyStreams steps := by
  cases h : (i.step s).value.1.emptyStream? <;> simp [emptyStreams, record, h]

/-- `j` is `i` with other numbers for passes, and but for the count of refused units. -/
structure Mirrors (vacant : List Nat) (i j : Interleaving) : Prop where
  fanout_eq : j.fanout = i.fanout.unrefused
  pass_eq : ∀ n p, i.pass? n = some p → n ∉ vacant ∧ j.pass? (renumber vacant n) = some p
  ended_eq : j.streamsEnded = renumber vacant i.streamsEnded

variable {i j : Interleaving} {vacant : List Nat} {n : Nat} {s : Step}

theorem Mirrors.land (h : Mirrors vacant i j) (hn : n ∉ vacant) :
    Mirrors vacant (i.land n) (j.land (renumber vacant n)) := by
  refine ⟨h.fanout_eq, fun m q hq => ?_, h.ended_eq⟩
  rw [pass?_land] at hq ⊢
  by_cases hmn : m = n
  · simp [hmn] at hq
  · rw [if_neg hmn] at hq
    obtain ⟨hm, hj⟩ := h.pass_eq m q hq
    simp [renumber_inj hm hn, hmn, hm, hj]

theorem Mirrors.hold (h : Mirrors vacant i j) (hn : n ∉ vacant) (p : Pass) :
    Mirrors vacant (i.hold n p) (j.hold (renumber vacant n) p) := by
  refine ⟨h.fanout_eq, fun m q hq => ?_, h.ended_eq⟩
  rw [pass?_hold] at hq ⊢
  by_cases hmn : m = n
  · subst hmn
    simpa [hn] using hq
  · rw [if_neg hmn] at hq
    obtain ⟨hm, hj⟩ := h.pass_eq m q hq
    simp [renumber_inj hm hn, hmn, hm, hj]

theorem Mirrors.follow (h : Mirrors vacant i j) (hn : n ∉ vacant) (o : Outcome) :
    (j.follow (renumber vacant n) o).1 = (i.follow n o).1.thinned (renumber vacant) ∧
      Mirrors vacant (i.follow n o).2 (j.follow (renumber vacant n) o).2 := by
  cases o with
  | suspended p => exact ⟨rfl, h.hold hn p⟩
  | ended result => exact ⟨rfl, h.land hn⟩

/-- A step about a pass fails unless the pass is in flight. -/
theorem exists_pass_of_step (hs : s.pass? = some n) (hkept : (i.step s).value.1.failed = false) :
    ∃ p, i.pass? n = some p := by
  cases hp : i.pass? n with
  | some p => exact ⟨p, rfl⟩
  | none =>
    rw [step_of_no_flight hs hp] at hkept
    cases hkept

/-- A step that does not fail is the same step in both runs. -/
theorem Mirrors.succeeds (h : Mirrors vacant i j) (hs : (i.step s).value.1.failed = false)
    (hend : s = .endStream → i.streamsEnded ∉ vacant) :
    (j.step (s.thinned (renumber vacant))).value.1 =
        (i.step s).value.1.thinned (renumber vacant) ∧
      Mirrors vacant (i.step s).value.2 (j.step (s.thinned (renumber vacant))).value.2 := by
  cases s with
  | call c =>
    have hcall : (i.fanout.unrefused.perform c.unrefused).value = _ :=
      i.fanout.perform_unrefused hs
    rw [← h.fanout_eq] at hcall
    simp only [Step.thinned, step, Logged.value_bind, Logged.value_pure, hcall]
    exact ⟨rfl, rfl, h.pass_eq, h.ended_eq⟩
  | endStream =>
    have hn := hend rfl
    have hvalue := i.fanout.endStream_unrefused
    rw [← h.fanout_eq] at hvalue
    simp only [Step.thinned, step, Logged.value_bind, Logged.value_pure, hvalue, h.ended_eq]
    apply Mirrors.follow _ hn
    exact ⟨rfl, h.pass_eq, by simp [renumber_succ, hn]⟩
  | resume n a =>
    obtain ⟨p, hp⟩ := exists_pass_of_step rfl hs
    obtain ⟨hn, hj⟩ := h.pass_eq n p hp
    have hvalue := i.fanout.resume_unrefused p a
    rw [← h.fanout_eq] at hvalue
    simp only [Step.thinned, (step_of_flight hp a).1, (step_of_flight hj a).1, hvalue]
    apply Mirrors.follow _ hn
    exact ⟨rfl, h.pass_eq, h.ended_eq⟩
  | abandon n =>
    obtain ⟨p, hp⟩ := exists_pass_of_step rfl hs
    obtain ⟨hn, hj⟩ := h.pass_eq n p hp
    simp only [Step.thinned, step_of_abandon hp, step_of_abandon hj, Logged.value_pure]
    exact ⟨rfl, h.land hn⟩

/-- What a step that fails comes to. -/
inductive Fails (i : Interleaving) : Step → StepResult × Interleaving → Prop where
  | refused (c : HostCall) (hc : (i.fanout.perform c).value.1.isRefusal = true) :
    i.Fails (.call c) (.called (i.fanout.perform c).value.1,
      { i with fanout := (i.fanout.perform c).value.2 })
  /-- The stream takes up its number and leaves nothing else. -/
  | empty :
    i.Fails .endStream (.ended i.streamsEnded (.error .noData),
      land { i with streamsEnded := i.streamsEnded + 1 } i.streamsEnded)
  | void (s : Step) : i.Fails s (.void, i)

theorem eq_noData_of_follow {o : Outcome} (h : (i.follow n o).1.failed = true) :
    o = .ended (.error .noData) := by
  cases o with
  | suspended p => cases h
  | ended result =>
    simp only [follow, StepResult.failed] at h
    split at h <;> simp_all

theorem fails_step (hs : (i.step s).value.1.failed = true) : i.Fails s (i.step s).value := by
  cases s with
  | call c => exact .refused c hs
  | endStream =>
    simp only [step, Logged.value_bind, Logged.value_pure] at hs ⊢
    have ho := eq_noData_of_follow hs
    rw [ho, i.fanout.endStream_noData ho]
    exact .empty
  | resume n a =>
    cases hp : i.pass? n with
    | none =>
      rw [step_of_no_flight rfl hp]
      exact .void _
    | some p =>
      rw [(step_of_flight hp a).1] at hs
      exact absurd (eq_noData_of_follow hs) (i.fanout.follow_ne_noData _)
  | abandon n =>
    cases hp : i.pass? n with
    | none =>
      rw [step_of_no_flight rfl hp]
      exact .void _
    | some p =>
      rw [step_of_abandon hp] at hs
      cases hs

/-- Only an end of stream has nothing to distribute. -/
theorem emptyStream?_step (h : (i.step s).value.1.emptyStream? = some n) :
    s = .endStream ∧ n = i.streamsEnded := by
  have hf := fails_step (StepResult.failed_of_emptyStream? h)
  generalize (i.step s).value = r at h hf
  cases hf with
  | refused c hc => cases h
  | empty =>
    cases h
    exact ⟨rfl, rfl⟩
  | void => cases h

/-- A step that fails is not missed. -/
theorem Mirrors.fails (h : Mirrors vacant i j) (hs : (i.step s).value.1.failed = true)
    (hempty : ∀ n, (i.step s).value.1.emptyStream? = some n → n ∈ vacant) :
    Mirrors vacant (i.step s).value.2 j := by
  have hf := fails_step hs
  generalize (i.step s).value = r at hempty hf
  cases hf with
  | refused c hc =>
    exact ⟨h.fanout_eq.trans (i.fanout.perform_refused hc).symm, h.pass_eq, h.ended_eq⟩
  | empty =>
    have hn : i.streamsEnded ∈ vacant := hempty _ rfl
    have hended : renumber vacant (i.streamsEnded + 1) = renumber vacant i.streamsEnded := by
      simp [renumber_succ, hn]
    refine ⟨h.fanout_eq, fun m q hq => ?_, h.ended_eq.trans hended.symm⟩
    rw [pass?_land] at hq
    split at hq
    · cases hq
    · exact h.pass_eq m q hq
  | void => exact h

theorem streamsEnded_le_of_mem {steps : List Step} (hn : n ∈ i.emptyStreams steps) :
    i.streamsEnded ≤ n := by
  induction steps generalizing i with
  | nil => cases hn
  | cons s steps ih =>
    rw [emptyStreams_cons, List.mem_append, Option.mem_toList] at hn
    rcases hn with hn | hn
    · exact Nat.le_of_eq (emptyStream?_step hn).2.symm
    · exact Nat.le_trans (i.takes_step s).streamsEnded_le (ih hn)

/-- A step takes up no number of a later stream. -/
theorem mem_emptyStreams_of_le {steps : List Step}
    (hn : (i.step s).value.2.streamsEnded ≤ n) :
    n ∈ i.emptyStreams (s :: steps) ↔ n ∈ (i.step s).value.2.emptyStreams steps := by
  have hended := (i.takes_step s).streamsEnded_eq
  have hnow : (i.step s).value.1.emptyStream? ≠ some n := by
    intro hnow
    obtain ⟨hs, rfl⟩ := emptyStream?_step hnow
    simp only [hs, if_true] at hended hn
    omega
  simp [emptyStreams_cons, hnow]

/-- An end of stream that starts a pass takes up a number that is not vacant. -/
theorem streamsEnded_notMem {steps : List Step} (hs : s = .endStream)
    (hkept : (i.step s).value.1.failed = false) :
    i.streamsEnded ∉ i.emptyStreams (s :: steps) := by
  have hended := (i.takes_step s).streamsEnded_eq
  rw [if_pos hs] at hended
  intro hmem
  rw [emptyStreams_cons, List.mem_append, Option.mem_toList] at hmem
  rcases hmem with hmem | hmem
  · simp [StepResult.failed_of_emptyStream? hmem] at hkept
  · have := streamsEnded_le_of_mem hmem
    omega

/-- From states that mirror each other on, the runs with and without failures show the same. -/
theorem Mirrors.record_eq (h : Mirrors vacant i j) {steps : List Step}
    (hvacant : ∀ n, i.streamsEnded ≤ n → (n ∈ vacant ↔ n ∈ i.emptyStreams steps)) :
    j.record ((i.succeeding steps).map (Step.thinned (renumber vacant))) =
      ((i.record steps).filter (!·.1.failed)).map
        fun shown => (shown.1.thinned (renumber vacant), shown.2.unrefused) := by
  induction steps generalizing i j with
  | nil => rfl
  | cons s steps ih =>
    have hle := (i.takes_step s).streamsEnded_le
    have hrest : ∀ n, (i.step s).value.2.streamsEnded ≤ n →
        (n ∈ vacant ↔ n ∈ (i.step s).value.2.emptyStreams steps) := fun n hn =>
      (hvacant n (Nat.le_trans hle hn)).trans (mem_emptyStreams_of_le hn)
    cases hs : (i.step s).value.1.failed with
    | true =>
      have hempty : ∀ n, (i.step s).value.1.emptyStream? = some n → n ∈ vacant := by
        intro n hn
        have hnumber := (emptyStream?_step hn).2
        apply (hvacant n (by omega)).mpr
        simp [emptyStreams_cons, hn]
      simp only [succeeding, record, hs, if_true, List.filter_cons, Bool.not_true,
        Bool.false_eq_true, if_false]
      exact ih (h.fails hs hempty) hrest
    | false =>
      have hend : s = .endStream → i.streamsEnded ∉ vacant := fun hend hmem =>
        streamsEnded_notMem hend hs ((hvacant _ (Nat.le_refl _)).mp hmem)
      obtain ⟨hresult, hnext⟩ := h.succeeds hs hend
      simp only [succeeding, record, hs, Bool.false_eq_true, if_false, List.filter_cons,
        Bool.not_false, if_true, List.map_cons, hresult, hnext.fanout_eq, Fanout.stats_unrefused]
      rw [ih hnext hrest]

theorem unitsRejected_step (i : Interleaving) (s : Step) :
    (i.step s).value.2.fanout.counters.unitsRejected =
      i.fanout.counters.unitsRejected + (i.step s).value.1.unitsRefused := by
  have ht := i.takes_step s
  generalize (i.step s).value = r at ht
  cases ht with
  | call c => exact i.fanout.unitsRejected_perform c
  | _ => rfl

theorem unitsRejected_after (i : Interleaving) (steps : List Step) :
    (i.after steps).fanout.counters.unitsRejected =
      i.fanout.counters.unitsRejected + sumOf (·.1.unitsRefused) (i.record steps) := by
  induction steps generalizing i with
  | nil => rfl
  | cons s steps ih =>
    simp only [after, record, sumOf_cons, ih, unitsRejected_step]
    omega

/-- Calls that fail leave no trace. A run without its failed steps shows the same results, the same
calls on the sink and the same statistics at every other step, whatever the sink answers and
whenever it calls back, but for the count of refused units. Passes keep their order, and only have
lower numbers where the end of a stream with nothing to distribute is left out. The count of refused
units is that of the refusals. -/
theorem failures_leave_no_trace (config : Config) (steps : List Step) :
    let i := fresh config
    let vacant := i.emptyStreams steps
    let number := renumber vacant
    let rest := (i.succeeding steps).map (Step.thinned number)
    i.record rest = ((i.record steps).filter (!·.1.failed)).map
        (fun shown => (shown.1.thinned number, shown.2.unrefused)) ∧
      (∀ m n, m ∉ vacant → m < n → number m < number n) ∧
      (i.after steps).fanout.counters.unitsRejected =
        sumOf (·.1.unitsRefused) (i.record steps) := by
  intro i vacant number rest
  have hmirrors : Mirrors vacant i i :=
    ⟨rfl, fun n p hp => by simp [i, fresh, pass?] at hp, rfl⟩
  refine ⟨hmirrors.record_eq fun n _ => Iff.rfl, fun m n => renumber_lt, ?_⟩
  rw [unitsRejected_after]
  exact Nat.zero_add _

end Interleaving

end StreamFanout
