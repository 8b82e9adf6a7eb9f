import StreamFanout.Proofs.CarriedCounts
import StreamFanout.Proofs.Interleaving.Views
import StreamFanout.Proofs.Refusals

/-!
Sessions do not depend on the ones before them. Once a stream has ended and nothing of the next one
has come in, all that is left of a history are the live channels, the watermark and the counts: a
run goes on from there as it goes on from any other history with the same channels and watermark.
-/
namespace StreamFanout

/-- The step when `n` streams have ended before. -/
def Step.shift (n : Nat) : Step → Step
  | .call c => .call c
  | .endStream => .endStream
  | .resume m a => .resume (n + m) a
  | .abandon m => .abandon (n + m)

/-- What a step shows when `n` streams have ended and `base` was counted before. -/
def StepResult.shift (n : Nat) (base : Counters) : StepResult → StepResult
  | .called r => .called (r.plus base)
  | .waiting m call => .waiting (n + m) call
  | .ended m result => .ended (n + m) result
  | .abandoned m => .abandoned (n + m)
  | .void => .void

namespace Interleaving

/-- `j` is `i`, but that `n` streams have ended and `base` was counted before. -/
structure Continues (n : Nat) (base : Counters) (i j : Interleaving) : Prop where
  fanout : i.fanout.Carries base j.fanout
  pass_eq : ∀ m, j.pass? (n + m) = i.pass? m
  ended_eq : j.streamsEnded = n + i.streamsEnded

variable {i j : Interleaving} {n : Nat} {base : Counters}

namespace Continues

theorem land (h : Continues n base i j) (m : Nat) :
    Continues n base (i.land m) (j.land (n + m)) := by
  refine ⟨h.fanout, fun k => ?_, h.ended_eq⟩
  rw [pass?_land, pass?_land, h.pass_eq]
  simp only [Nat.add_left_cancel_iff]

theorem hold (h : Continues n base i j) (m : Nat) (p : Pass) :
    Continues n base (i.hold m p) (j.hold (n + m) p) := by
  refine ⟨h.fanout, fun k => ?_, h.ended_eq⟩
  rw [pass?_hold, pass?_hold, h.pass_eq]
  simp only [Nat.add_left_cancel_iff]

theorem follow (h : Continues n base i j) (m : Nat) (o : Outcome) :
    (j.follow (n + m) o).1 = (i.follow m o).1.shift n base ∧
      Continues n base (i.follow m o).2 (j.follow (n + m) o).2 := by
  cases o with
  | suspended p => exact ⟨rfl, h.hold m p⟩
  | ended result => exact ⟨rfl, h.land m⟩

/-- A step shows and logs the same in both. -/
theorem step (h : Continues n base i j) (s : Step) :
    (j.step (s.shift n)).value.1 = (i.step s).value.1.shift n base ∧
      (j.step (s.shift n)).log = (i.step s).log ∧
      Continues n base (i.step s).value.2 (j.step (s.shift n)).value.2 := by
  -- The passes in flight are the same up to their numbers, so a step is void in both or in neither.
  have void (s : Step) {m : Nat} (hs : s.pass? = some m) (hs' : (s.shift n).pass? = some (n + m))
      (hp : i.pass? m = none) :
      (j.step (s.shift n)).value.1 = (i.step s).value.1.shift n base ∧
        (j.step (s.shift n)).log = (i.step s).log ∧
        Continues n base (i.step s).value.2 (j.step (s.shift n)).value.2 := by
    rw [step_of_no_flight hs hp, step_of_no_flight hs' ((h.pass_eq m).trans hp)]
    exact ⟨rfl, rfl, h⟩
  cases s with
  | call c =>
    obtain ⟨hvalue, hlog, hcarries⟩ := h.fanout.perform c
    refine ⟨congrArg StepResult.called hvalue, ?_, hcarries, h.pass_eq, h.ended_eq⟩
    simp only [Step.shift, Interleaving.step, Logged.log_bind, hlog]
    rfl
  | endStream =>
    obtain ⟨hvalue, hlog, hcarries⟩ := h.fanout.endStream
    have hnext : Continues n base
        { i with fanout := i.fanout.endStream.value.2, streamsEnded := i.streamsEnded + 1 }
        { j with fanout := j.fanout.endStream.value.2, streamsEnded := j.streamsEnded + 1 } :=
      ⟨hcarries, h.pass_eq, congrArg (· + 1) h.ended_eq⟩
    have hfollow := hnext.follow i.streamsEnded i.fanout.endStream.value.1
    have hj : (j.step .endStream).value = Interleaving.follow
        { j with fanout := j.fanout.endStream.value.2, streamsEnded := j.streamsEnded + 1 }
        (n + i.streamsEnded) i.fanout.endStream.value.1 := by
      rw [← hvalue, ← h.ended_eq]
      rfl
    rw [Step.shift, hj]
    refine ⟨hfollow.1, ?_, hfollow.2⟩
    simp only [Interleaving.step, Logged.log_bind, hlog]
    rfl
  | resume m a =>
    cases hp : i.pass? m with
    | none => exact void _ rfl rfl hp
    | some p =>
      obtain ⟨hvalue, hlog, hcarries⟩ := h.fanout.resume p a
      have hnext : Continues n base { i with fanout := (i.fanout.resume p a).value.2 }
          { j with fanout := (j.fanout.resume p a).value.2 } :=
        ⟨hcarries, h.pass_eq, h.ended_eq⟩
      have hfollow := hnext.follow m (i.fanout.resume p a).value.1
      obtain ⟨hi, hi'⟩ := step_of_flight hp a
      obtain ⟨hj, hj'⟩ := step_of_flight ((h.pass_eq m).trans hp) a
      rw [Step.shift, hi, hj, hi', hj', hvalue]
      exact ⟨hfollow.1, hlog, hfollow.2⟩
  | abandon m =>
    cases hp : i.pass? m with
    | none => exact void _ rfl rfl hp
    | some p =>
      rw [Step.shift, step_of_abandon hp, step_of_abandon ((h.pass_eq m).trans hp)]
      exact ⟨rfl, rfl, h.land m⟩

theorem run (h : Continues n base i j) (steps : List Step) :
    j.trace (steps.map (Step.shift n)) =
        (i.trace steps).map (StepResult.shift n base <$> ·) ∧
      Continues n base (i.after steps) (j.after (steps.map (Step.shift n))) := by
  induction steps generalizing i j with
  | nil => exact ⟨rfl, h⟩
  | cons s steps ih =>
    obtain ⟨hvalue, hlog, hnext⟩ := h.step s
    obtain ⟨htrace, hafter⟩ := ih hnext
    refine ⟨?_, hafter⟩
    rw [List.map_cons, trace, trace, List.map_cons, htrace, hvalue, hlog]
    rfl

end Continues

/-- A history after which a stream has ended and no pass is in flight. No unit was accepted since
the end of the stream, while its pass was under way or later. -/
structure Rests (config : Config) (history : List Step) : Prop where
  ended : ∃ before during, history = before ++ .endStream :: during ∧ arrivals during = []
  landed : ((fresh config).after history).inFlight = []

theorem Rests.grouping_eq {config : Config} {history : List Step} (h : Rests config history) :
    ((fresh config).after history).fanout.grouping = {} := by
  obtain ⟨before, during, rfl, hnone⟩ := h.ended
  have hopen : openStream (before ++ .endStream :: during) = [] := by
    have hunits := flatten_endedStreams [] during
    rw [hnone, List.append_nil] at hunits
    rw [openStream, List.foldl_append, List.foldl_cons]
    exact (List.append_eq_nil_iff.mp hunits).2
  apply Grouping.eq_empty_of_groups
  have hgroups := groups_after config (before ++ .endStream :: during)
  rw [hopen] at hgroups
  exact hgroups.groups_eq_nil_iff.mpr rfl

/-- After such a history a run goes on as that of a new fanout with the same channels. -/
theorem Rests.continues {config : Config} {history : List Step} (h : Rests config history)
    (roster : Roster) (hr : roster.Same ((fresh config).after history).fanout.roster) :
    let i := (fresh config).after history
    Continues i.streamsEnded i.fanout.counters { fanout := { config, roster } } i := by
  intro i
  refine ⟨⟨config_after _ history, hr, h.grouping_eq, rfl⟩, fun m => ?_, rfl⟩
  rw [pass?, h.landed]
  rfl

/-- Sessions are independent. Take two histories at whose ends a stream has ended, no pass is in
flight and no unit has come in since, which leave the same channels live in the same order and the
same watermark, whatever was taken in, lost, dropped or refused in them. Whatever is done from there
on, with the passes of both runs counted from there, it shows, calls and logs the same in both: all
that differs are the numbers of passes and readings of counters, by what there was before. All
counters grow by the same. -/
theorem sessions_independent (config : Config) (xs ys : List Step) (hx : Rests config xs)
    (hy : Rests config ys) (steps : List Step) :
    let i := (fresh config).after xs
    let j := (fresh config).after ys
    i.fanout.live = j.fanout.live → i.fanout.roster.watermark = j.fanout.roster.watermark →
      ∃ (shown : List (Logged StepResult)) (growth : Counters),
        i.trace (steps.map (Step.shift i.streamsEnded)) =
          shown.map (StepResult.shift i.streamsEnded i.fanout.counters <$> ·) ∧
        j.trace (steps.map (Step.shift j.streamsEnded)) =
          shown.map (StepResult.shift j.streamsEnded j.fanout.counters <$> ·) ∧
        (i.after (steps.map (Step.shift i.streamsEnded))).fanout.counters =
          i.fanout.counters.plus growth ∧
        (j.after (steps.map (Step.shift j.streamsEnded))).fanout.counters =
          j.fanout.counters.plus growth := by
  intro i j hlive hwatermark
  let new : Interleaving := { fanout := { config, roster := i.fanout.roster } }
  obtain ⟨hi, hi'⟩ := (hx.continues i.fanout.roster ⟨rfl, rfl⟩).run steps
  obtain ⟨hj, hj'⟩ := (hy.continues i.fanout.roster ⟨hlive.symm, hwatermark.symm⟩).run steps
  exact ⟨new.trace steps, (new.after steps).fanout.counters, hi, hj, hi'.fanout.counters_eq,
    hj'.fanout.counters_eq⟩

/-- A pass that delivered, and a refused unit, a pass that lost a unit and one that had nothing to
distribute, with the same channel live. -/
theorem sessions_independent_of_losses :
    let frame (pts : UInt64) : AccessUnit := { pts, payload := ⟨#[1]⟩, isKeyframe := true }
    let xs : List Step := [.call (.request (some ⟨0⟩)), .call (.arrive (frame 0)), .endStream,
      .resume 0, .resume 0, .resume 0, .resume 0]
    let ys : List Step := [.call (.request (some ⟨0⟩)),
      .call (.arriveAll [frame 0, frame 1, { pts := 2, payload := ⟨#[]⟩, isKeyframe := true }]),
      .endStream, .resume 0, .resume 0 (.refused (.channelClosed ⟨0⟩)), .resume 0, .resume 0,
      .endStream]
    ((fresh {}).after xs).fanout.counters ≠ ((fresh {}).after ys).fanout.counters ∧
      ∃ shown : List (Logged StepResult),
        ((fresh {}).after xs).trace
            [.call (.arrive (frame 3)), .endStream, .resume 1, .resume 1, .call .stats] =
          shown.map (StepResult.shift 1 ((fresh {}).after xs).fanout.counters <$> ·) ∧
        ((fresh {}).after ys).trace
            [.call (.arrive (frame 3)), .endStream, .resume 2, .resume 2, .call .stats] =
          shown.map (StepResult.shift 2 ((fresh {}).after ys).fanout.counters <$> ·) := by
  intro frame xs ys
  have hx : Rests {} xs := ⟨⟨xs.take 2, xs.drop 3, rfl, rfl⟩, by decide +kernel⟩
  have hy : Rests {} ys := ⟨⟨ys.take 7, [], rfl, rfl⟩, by decide +kernel⟩
  have hi : ((fresh {}).after xs).streamsEnded = 1 := by decide +kernel
  have hj : ((fresh {}).after ys).streamsEnded = 2 := by decide +kernel
  obtain ⟨shown, -, hshown, hshown', -⟩ := sessions_independent {} xs ys hx hy
    [.call (.arrive (frame 3)), .endStream, .resume 0, .resume 0, .call .stats]
    (by decide +kernel) (by decide +kernel)
  rw [hi] at hshown
  rw [hj] at hshown'
  exact ⟨by decide +kernel, shown, hshown, hshown'⟩

end Interleaving

end StreamFanout
