import StreamFanout.Interleaving
import StreamFanout.Proofs.EndOfStream
import StreamFanout.Proofs.HostCall

/-!
The steps of a run: what each of them can do, and what they all keep. The live channels do not
repeat, and no pass in flight has the number of a stream that has not ended.
-/
namespace StreamFanout

/-- The pass that a step is about, unless the step starts it. -/
def Step.pass? : Step → Option Nat
  | .resume n _ => some n
  | .abandon n => some n
  | _ => none

def Outcome.pass? : Outcome → Option Pass
  | .suspended p => some p
  | .ended _ => none

namespace Interleaving

/-- Where runs begin: nothing is buffered, no channel is live and no pass is in flight. -/
def fresh (config : Config) : Interleaving :=
  { fanout := { config } }

def pass? (i : Interleaving) (n : Nat) : Option Pass :=
  i.inFlight.lookup n

def hold (i : Interleaving) (n : Nat) (p : Pass) : Interleaving :=
  { i with inFlight := (n, p) :: (i.land n).inFlight }

variable {i : Interleaving} {n : Nat} {p : Pass}

private theorem lookup_cons_eq_ite (k : Nat) (p : Pass) (xs : List (Nat × Pass)) (n : Nat) :
    ((k, p) :: xs).lookup n = if n = k then some p else xs.lookup n := by
  rw [List.lookup_cons]
  by_cases h : n = k
  · simp [h]
  · have hb : (n == k) = false := by simpa using h
    simp [h, hb]

theorem pass?_land (i : Interleaving) (m n : Nat) :
    (i.land m).pass? n = if n = m then none else i.pass? n := by
  have h (xs : List (Nat × Pass)) :
      (xs.filter (·.1 ≠ m)).lookup n = if n = m then none else xs.lookup n := by
    induction xs with
    | nil => simp
    | cons e xs ih =>
      obtain ⟨k, q⟩ := e
      rw [List.filter_cons, lookup_cons_eq_ite]
      by_cases hk : k = m
      · rw [if_neg (by simpa using hk), ih]
        by_cases hn : n = m
        · rw [if_pos hn, if_pos hn]
        · rw [if_neg hn, if_neg hn, if_neg (by rw [hk]; exact hn)]
      · rw [if_pos (by simpa using hk), lookup_cons_eq_ite, ih]
        by_cases hn : n = k
        · rw [if_pos hn, if_neg (by rw [hn]; exact hk), if_pos hn]
        · rw [if_neg hn, if_neg hn]
  exact h i.inFlight

theorem pass?_hold (i : Interleaving) (m n : Nat) (p : Pass) :
    (i.hold m p).pass? n = if n = m then some p else i.pass? n := by
  have h := i.pass?_land m n
  unfold pass? hold at *
  rw [lookup_cons_eq_ite, h]
  by_cases hn : n = m
  · rw [if_pos hn, if_pos hn]
  · rw [if_neg hn, if_neg hn, if_neg hn]

@[simp] theorem pass?_land_self (i : Interleaving) (n : Nat) : (i.land n).pass? n = none :=
  (i.pass?_land n n).trans (if_pos rfl)

@[simp] theorem pass?_hold_self (i : Interleaving) (n : Nat) (p : Pass) :
    (i.hold n p).pass? n = some p :=
  (i.pass?_hold n n p).trans (if_pos rfl)

theorem pass?_land_of_ne {m : Nat} (h : n ≠ m) : (i.land m).pass? n = i.pass? n :=
  (i.pass?_land m n).trans (if_neg h)

theorem pass?_hold_of_ne {m : Nat} (h : n ≠ m) : (i.hold m p).pass? n = i.pass? n :=
  (i.pass?_hold m n p).trans (if_neg h)

theorem pass?_follow (i : Interleaving) (n : Nat) (o : Outcome) :
    (i.follow n o).2.pass? n = o.pass? := by
  cases o with
  | suspended p => exact i.pass?_hold_self n p
  | ended result => exact i.pass?_land_self n

theorem fanout_follow (i : Interleaving) (n : Nat) (o : Outcome) :
    (i.follow n o).2.fanout = i.fanout := by
  cases o <;> rfl

theorem step_of_flight (hp : i.pass? n = some p) (a : Answer) :
    (i.step (.resume n a)).value =
        follow { i with fanout := (i.fanout.resume p a).value.2 } n
          (i.fanout.resume p a).value.1 ∧
      (i.step (.resume n a)).log = (i.fanout.resume p a).log := by
  change i.inFlight.lookup n = some p at hp
  rw [step, hp]
  simp

theorem step_of_abandon (hp : i.pass? n = some p) :
    i.step (.abandon n) = pure (.abandoned n, i.land n) := by
  change i.inFlight.lookup n = some p at hp
  rw [step, hp]

theorem step_of_no_flight {s : Step} (hs : s.pass? = some n) (hp : i.pass? n = none) :
    i.step s = pure (.void, i) := by
  change i.inFlight.lookup n = none at hp
  cases s with
  | resume m a => cases hs; rw [step, hp]
  | abandon m => cases hs; rw [step, hp]
  | _ => cases hs

/-- What a step can do, with all that holds then. -/
inductive Takes (i : Interleaving) : Step → StepResult × Interleaving → Prop where
  | call (c : HostCall) :
    i.Takes (.call c) (.called (i.fanout.perform c).value.1,
      { i with fanout := (i.fanout.perform c).value.2 })
  /-- There are channels and no groups. -/
  | empty (hg : i.fanout.grouping.groups = []) (hl : i.fanout.live ≠ []) :
    i.Takes .endStream (.ended i.streamsEnded (.error .noData),
      land { i with
        fanout := { i.fanout with grouping := {} }
        streamsEnded := i.streamsEnded + 1 } i.streamsEnded)
  | start (h : i.fanout.live = [] ∨ i.fanout.grouping.groups ≠ []) :
    i.Takes .endStream (.waiting i.streamsEnded i.fanout.opening.call?,
      hold { i with
        fanout := { i.fanout with grouping := {} }
        streamsEnded := i.streamsEnded + 1 } i.streamsEnded i.fanout.opening)
  | proceed (n : Nat) (a : Answer) (p p' : Pass) (hp : i.pass? n = some p)
    (hr : (p.resume i.fanout.roster.contains i.fanout.config.silent a).value = .waiting p') :
    i.Takes (.resume n a) (.waiting n p'.call?, i.hold n p')
  | finish (n : Nat) (a : Answer) (p : Pass) (plan : Partition) (lanes : List Lane)
    (hp : i.pass? n = some p)
    (hr : (p.resume i.fanout.roster.contains i.fanout.config.silent a).value =
      .finished plan lanes) :
    i.Takes (.resume n a) (.ended n (i.fanout.book plan lanes).value.1,
      land { i with fanout := i.fanout.booked lanes } n)
  /-- There were no channels when the stream ended. -/
  | discard (n : Nat) (a : Answer) (p : Pass) (gops : List Gop) (hp : i.pass? n = some p)
    (hr : (p.resume i.fanout.roster.contains i.fanout.config.silent a).value = .discarded gops) :
    i.Takes (.resume n a) (.ended n (.error (.noChannels gops.length)),
      land { i with fanout := i.fanout.discard gops } n)
  | drop (n : Nat) (p : Pass) (hp : i.pass? n = some p) :
    i.Takes (.abandon n) (.abandoned n, i.land n)
  /-- The step is about a pass that is not in flight. -/
  | void (s : Step) (n : Nat) (hs : s.pass? = some n) (hp : i.pass? n = none) :
    i.Takes s (.void, i)

theorem takes_endStream (i : Interleaving) : i.Takes .endStream (i.step .endStream).value := by
  by_cases h : i.fanout.live = [] ∨ i.fanout.grouping.groups ≠ []
  · simp only [step, Logged.value_bind, Fanout.endStream_opens h]
    exact .start h
  · obtain ⟨hl, hg⟩ := not_or.mp h
    have hg := Classical.not_not.mp hg
    simp only [step, Logged.value_bind, Fanout.endStream_empty hg hl]
    exact .empty hg hl

theorem takes_resume (i : Interleaving) (n : Nat) (a : Answer) :
    i.Takes (.resume n a) (i.step (.resume n a)).value := by
  cases hp : i.pass? n with
  | none =>
    rw [step_of_no_flight rfl hp]
    exact .void _ n rfl hp
  | some p =>
    rw [(step_of_flight hp a).1]
    rcases i.fanout.resume_cases p a with
      ⟨p', hr, hf⟩ | ⟨plan, lanes, hr, hf⟩ | ⟨gops, hr, hf⟩
    · rw [hf]
      exact .proceed n a p p' hp hr
    · rw [hf]
      exact .finish n a p plan lanes hp hr
    · rw [hf]
      exact .discard n a p gops hp hr

theorem takes_abandon (i : Interleaving) (n : Nat) :
    i.Takes (.abandon n) (i.step (.abandon n)).value := by
  cases hp : i.pass? n with
  | none =>
    rw [step_of_no_flight rfl hp]
    exact .void _ n rfl hp
  | some p =>
    rw [step_of_abandon hp]
    exact .drop n p hp

theorem takes_step (i : Interleaving) (s : Step) : i.Takes s (i.step s).value := by
  cases s with
  | call c => exact .call c
  | endStream => exact i.takes_endStream
  | resume n a => exact i.takes_resume n a
  | abandon n => exact i.takes_abandon n

/-- With groups, or without channels, an end of stream opens a pass. -/
theorem step_endStream (h : i.fanout.live = [] ∨ i.fanout.grouping.groups ≠ []) :
    (i.step .endStream).value = (.waiting i.streamsEnded i.fanout.opening.call?,
      hold { i with
        fanout := { i.fanout with grouping := {} }
        streamsEnded := i.streamsEnded + 1 } i.streamsEnded i.fanout.opening) := by
  simp only [step, Logged.value_bind, Fanout.endStream_opens h]
  rfl

theorem step_endStream_empty (hg : i.fanout.grouping.groups = []) (hl : i.fanout.live ≠ []) :
    (i.step .endStream).value = (.ended i.streamsEnded (.error .noData),
      land { i with
        fanout := { i.fanout with grouping := {} }
        streamsEnded := i.streamsEnded + 1 } i.streamsEnded) := by
  simp only [step, Logged.value_bind, Fanout.endStream_empty hg hl]
  rfl

structure Sound (i : Interleaving) : Prop where
  live_nodup : i.fanout.live.Nodup
  number_lt : ∀ n p, i.pass? n = some p → n < i.streamsEnded

theorem sound_fresh (config : Config) : (fresh config).Sound :=
  ⟨List.nodup_nil, fun n p h => by simp [fresh, pass?] at h⟩

theorem Sound.land {m : Nat} (h : i.Sound) : (i.land m).Sound := by
  refine ⟨h.live_nodup, fun n p hp => ?_⟩
  rw [pass?_land] at hp
  split at hp
  · cases hp
  · exact h.number_lt n p hp

theorem Sound.hold {m : Nat} (h : i.Sound) (hm : m < i.streamsEnded) (p : Pass) :
    (i.hold m p).Sound := by
  refine ⟨h.live_nodup, fun n q hq => ?_⟩
  rw [pass?_hold] at hq
  split at hq
  · next hn => exact hn ▸ hm
  · exact h.number_lt n q hq

variable {s : Step} {r : StepResult × Interleaving}

theorem Takes.sound (h : i.Sound) (ht : i.Takes s r) : r.2.Sound := by
  have later : Sound { i with
      fanout := { i.fanout with grouping := {} }
      streamsEnded := i.streamsEnded + 1 } :=
    ⟨h.live_nodup, fun n p hp => Nat.lt_succ_of_lt (h.number_lt n p hp)⟩
  cases ht with
  | call c => exact ⟨Fanout.nodup_live_perform h.live_nodup c, h.number_lt⟩
  | empty hg hl => exact later.land
  | start ho => exact later.hold (Nat.lt_succ_self _) _
  | proceed n a p p' hp hr => exact h.hold (h.number_lt n p hp) p'
  | finish n a p plan lanes hp hr => exact Sound.land ⟨h.live_nodup, h.number_lt⟩
  | discard n a p gops hp hr => exact Sound.land ⟨h.live_nodup, h.number_lt⟩
  | drop n p hp => exact h.land
  | void s n hs hp => exact h

theorem Sound.step (h : i.Sound) (s : Step) : (i.step s).value.2.Sound :=
  (i.takes_step s).sound h

theorem Sound.after (h : i.Sound) (steps : List Step) : (i.after steps).Sound := by
  induction steps generalizing i with
  | nil => exact h
  | cons s steps ih => exact ih (h.step s)

theorem Takes.config_eq (ht : i.Takes s r) : r.2.fanout.config = i.fanout.config := by
  cases ht with
  | call c => exact (i.fanout.perform_absorbs c).config_eq
  | _ => rfl

theorem config_after (i : Interleaving) (steps : List Step) :
    (i.after steps).fanout.config = i.fanout.config := by
  induction steps generalizing i with
  | nil => rfl
  | cons s steps ih => exact (ih (i.step s).value.2).trans (i.takes_step s).config_eq

theorem Takes.streamsEnded_eq (ht : i.Takes s r) :
    r.2.streamsEnded = i.streamsEnded + if s = .endStream then 1 else 0 := by
  cases ht with
  | void s n hs hp =>
    have hne : s ≠ .endStream := by
      rintro rfl
      cases hs
    rw [if_neg hne]
    rfl
  | _ => rfl

theorem Takes.streamsEnded_le (ht : i.Takes s r) : i.streamsEnded ≤ r.2.streamsEnded := by
  rw [ht.streamsEnded_eq]
  exact Nat.le_add_right _ _

theorem streamsEnded_le_after (i : Interleaving) (steps : List Step) :
    i.streamsEnded ≤ (i.after steps).streamsEnded := by
  induction steps generalizing i with
  | nil => exact Nat.le_refl _
  | cons s steps ih => exact Nat.le_trans (i.takes_step s).streamsEnded_le (ih (i.step s).value.2)

/-- A step about a pass in flight brings it to its next stop, ends it or drops it. -/
theorem step_of_pass (hp : i.pass? n = some p) (hs : s.pass? = some n) :
    (∃ a p', s = .resume n a ∧
        (p.resume i.fanout.roster.contains i.fanout.config.silent a).value = .waiting p' ∧
        (i.step s).value = (.waiting n p'.call?, i.hold n p')) ∨
      (i.step s).value.2.pass? n = none ∧
        ((∃ a result, s = .resume n a ∧ (i.step s).value.1 = .ended n result ∧
          ((∃ plan lanes, (p.resume i.fanout.roster.contains i.fanout.config.silent a).value =
              .finished plan lanes ∧ result = (i.fanout.book plan lanes).value.1 ∧
              (i.step s).value.2.fanout = i.fanout.booked lanes) ∨
            ∃ gops, (p.resume i.fanout.roster.contains i.fanout.config.silent a).value =
              .discarded gops ∧ result = .error (.noChannels gops.length) ∧
              (i.step s).value.2.fanout = i.fanout.discard gops)) ∨
        s = .abandon n ∧ (i.step s).value.1 = .abandoned n) := by
  have ht := i.takes_step s
  generalize (i.step s).value = r at ht
  cases ht with
  | proceed m a q p' hq hr =>
    cases hs
    cases hp.symm.trans hq
    exact .inl ⟨a, p', rfl, hr, rfl⟩
  | finish m a q plan lanes hq hr =>
    cases hs
    cases hp.symm.trans hq
    exact .inr ⟨by rw [pass?_land_self],
      .inl ⟨a, _, rfl, rfl, .inl ⟨plan, lanes, hr, rfl, rfl⟩⟩⟩
  | discard m a q gops hq hr =>
    cases hs
    cases hp.symm.trans hq
    exact .inr ⟨by rw [pass?_land_self], .inl ⟨a, _, rfl, rfl, .inr ⟨gops, hr, rfl, rfl⟩⟩⟩
  | drop m q hq =>
    cases hs
    exact .inr ⟨by rw [pass?_land_self], .inr ⟨rfl, rfl⟩⟩
  | void s m hm hnone =>
    cases hs.symm.trans hm
    rw [hp] at hnone
    cases hnone
  | _ => cases hs

end Interleaving

end StreamFanout
