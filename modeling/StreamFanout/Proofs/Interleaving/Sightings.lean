import StreamFanout.Proofs.Distribution.NotedGroups
import StreamFanout.Proofs.Interleaving.Views
import StreamFanout.Proofs.ReportContents

/-!
What is seen of one pass in the midst of a run: the events of its own steps and the calls that these
show, in one sequence. From the end of its stream to its last step it tells how far the lanes of the
pass have come, and it closes with the event that the pass is booked with.
-/
namespace StreamFanout

namespace Fanout

def closing (lanes : List Lane) : LogEvent :=
  if Lane.failedChannels lanes = [] then .finished (Lane.totalPushed lanes)
  else .finishedWithLoss (Lane.failedChannels lanes).length (Lane.totalDropped lanes)

theorem log_book (f : Fanout) (plan : Partition) (lanes : List Lane) :
    (f.book plan lanes).log = [closing lanes] := by
  unfold book closing
  dsimp only
  split <;> rfl

theorem aside_finalize (g : Grouping) :
    ∀ e ∈ g.finalize.log, (Sighting.logged e).isAside = true := by
  have hclose : g.finalize.log = g.close.log := by simp [Grouping.finalize]
  rw [hclose, Grouping.close]
  cases g.current with
  | none => simp
  | some gop => simp [Sighting.isAside]

/-- What an end of stream logs is about neither groups nor units. -/
theorem log_endStream {f : Fanout} (hg : f.grouping.groups ≠ []) (hl : f.live ≠ []) :
    ∀ e ∈ f.endStream.log, (Sighting.logged e).isAside = true := by
  have hplan : Partition.plan f.grouping.groups.length f.live = .ok f.plan :=
    Partition.plan_ok hl (mt List.eq_nil_of_length_eq_zero hg)
  have hdistribute : ∀ e ∈ (distribute f.grouping.groups f.live).log,
      (Sighting.logged e).isAside = true := by
    rw [distribute, hplan]
    dsimp only
    split <;> simp [Sighting.isAside]
  simp only [endStream, Logged.log_bind, Grouping.finalize_value, Logged.log_emit, Logged.log_pure,
    List.append_nil, List.forall_mem_append, List.forall_mem_singleton]
  exact ⟨aside_finalize f.grouping, rfl, hdistribute⟩

end Fanout

namespace Interleaving

variable {i : Interleaving} {n : Nat} {p : Pass} {s : Step} {r : StepResult × Interleaving}

/-- What is seen of the `n`-th pass in a step. -/
def sightingsIn (i : Interleaving) (n : Nat) (s : Step) : List Sighting :=
  if i.Concerns n s then
    (i.step s).log.map .logged ++ ((i.step s).value.1.call? n).toList.map .called
  else []

def sightings (i : Interleaving) (n : Nat) : List Step → List Sighting
  | [] => []
  | s :: steps => i.sightingsIn n s ++ sightings (i.step s).value.2 n steps

theorem sightings_append (i : Interleaving) (n : Nat) (xs ys : List Step) :
    i.sightings n (xs ++ ys) = i.sightings n xs ++ (i.after xs).sightings n ys := by
  induction xs generalizing i with
  | nil => rfl
  | cons s xs ih =>
    rw [List.cons_append, sightings, sightings, ih, List.append_assoc]
    rfl

theorem Takes.call?_of_not_concerns (ht : i.Takes s r) (hc : ¬ i.Concerns n s) :
    r.1.call? n = none := by
  cases ht with
  | start ho => exact if_neg fun hn => hc (.inr ⟨rfl, hn⟩)
  | proceed m a p p' hp hr => exact if_neg fun hn => hc (.inl (congrArg some hn))
  | _ => rfl

/-- All calls of a pass are seen. -/
theorem callsOf_sightings (i : Interleaving) (n : Nat) (steps : List Step) :
    callsOf (i.sightings n steps) = i.calls n steps := by
  induction steps generalizing i with
  | nil => rfl
  | cons s steps ih =>
    have hstep : callsOf (i.sightingsIn n s) = ((i.step s).value.1.call? n).toList := by
      unfold sightingsIn
      split
      · cases (i.step s).value.1.call? n <;> simp [callsOf, Sighting.call?]
      · next hc =>
        rw [(i.takes_step s).call?_of_not_concerns hc]
        rfl
    rw [sightings, callsOf_append, hstep, ih, calls_cons]

theorem not_concerns (hn : n < i.streamsEnded) (hs : s.pass? ≠ some n) : ¬ i.Concerns n s := by
  rintro (h | ⟨-, rfl⟩)
  · exact hs h
  · exact Nat.lt_irrefl _ hn

/-- Nothing is seen of a pass after it has left the flight. -/
theorem sightings_eq_nil (hn : n < i.streamsEnded) (hp : i.pass? n = none) (steps : List Step) :
    i.sightings n steps = [] := by
  induction steps generalizing i with
  | nil => rfl
  | cons s steps ih =>
    have ht := i.takes_step s
    by_cases hs : s.pass? = some n
    · have hstep := step_of_no_flight hs hp
      rw [sightings, sightingsIn, hstep, if_pos (.inl hs)]
      exact ih hn hp
    · rw [sightings, sightingsIn, if_neg (not_concerns hn hs)]
      exact ih (Nat.lt_of_lt_of_le hn ht.streamsEnded_le) ((ht.other hn hs).2.trans hp)

theorem sightingsIn_of_waiting (hp : i.pass? n = some p) {a : Answer} {p' : Pass}
    (hr : (p.resume i.fanout.roster.contains i.fanout.config.silent a).value = .waiting p')
    (he : (i.step (.resume n a)).value.1 = .waiting n p'.call?) :
    i.sightingsIn n (.resume n a) =
      Progress.sightings (p.resume i.fanout.roster.contains i.fanout.config.silent a) := by
  rw [sightingsIn, if_pos (.inl rfl), (step_of_flight hp a).2, he, StepResult.call?_waiting,
    Fanout.resume, Logged.log_bind, Progress.sightings, hr]
  simp [Fanout.follow, Progress.next?, Progress.pass?]

/-- With its last step a pass is booked. -/
theorem sightingsIn_of_finished (hp : i.pass? n = some p) {a : Answer} {plan : Partition}
    {lanes : List Lane}
    (hr : (p.resume i.fanout.roster.contains i.fanout.config.silent a).value =
      .finished plan lanes)
    {result : Except FanoutError Report}
    (he : (i.step (.resume n a)).value.1 = .ended n result) :
    i.sightingsIn n (.resume n a) =
      Progress.sightings (p.resume i.fanout.roster.contains i.fanout.config.silent a) ++
        [.logged (Fanout.closing lanes)] := by
  rw [sightingsIn, if_pos (.inl rfl), (step_of_flight hp a).2, he, Fanout.resume, Logged.log_bind,
    Progress.sightings, hr]
  simp [Fanout.follow, Fanout.log_book, Progress.next?, Progress.pass?, StepResult.call?]

/-- As long as a pass is in flight, what is seen of it tells how far its lanes have come. -/
theorem recorded_after (h : i.Sound) {gops : List Gop} {seen : List Sighting}
    (hp : i.pass? n = some p) (hstep : p.InStep)
    (hr : (Progress.waiting p).Recorded gops i.fanout.config.silent seen) (steps : List Step) :
    ∀ q, (i.after steps).pass? n = some q → q.InStep ∧
      (Progress.waiting q).Recorded gops i.fanout.config.silent (seen ++ i.sightings n steps) := by
  induction steps generalizing i p seen with
  | nil =>
    intro q hq
    cases hp.symm.trans hq
    exact ⟨hstep, by simpa [sightings] using hr⟩
  | cons s steps ih =>
    intro q hq
    have hn := h.number_lt n p hp
    have ht := i.takes_step s
    have h' := h.step s
    rw [sightings, ← List.append_assoc, ← ht.config_eq]
    by_cases hs : s.pass? = some n
    · rcases step_of_pass hp hs with ⟨a, p', rfl, hresume, htaken⟩ | ⟨hgone, -⟩
      · have htells := Pass.tells_resume i.fanout.roster.contains hr hstep a
        have hstep' := Pass.inStep_resume i.fanout.roster.contains i.fanout.config.silent hstep a
        have hwaiting : (i.step (.resume n a)).value.1 = .waiting n p'.call? := by rw [htaken]
        rw [Progress.Tells, ← sightingsIn_of_waiting hp hresume hwaiting, hresume,
          ← ht.config_eq] at htells
        rw [hresume] at hstep'
        exact ih h' (by rw [htaken, pass?_hold_self]) hstep' htells q hq
      · cases (unseen (Nat.lt_of_lt_of_le hn ht.streamsEnded_le) hgone steps).2.2.2.symm.trans hq
    · rw [sightingsIn, if_neg (not_concerns hn hs), List.append_nil]
      rw [← ht.config_eq] at hr
      exact ih h' ((ht.other hn hs).2.trans hp) hstep hr q hq

/-- What is seen of a pass when its stream ends tells that it is about to begin. -/
theorem recorded_opening (h : i.Sound) (hg : i.fanout.grouping.groups ≠ [])
    (hl : i.fanout.live ≠ []) :
    (Progress.waiting i.fanout.opening).Recorded i.fanout.grouping.groups i.fanout.config.silent
      (i.sightingsIn i.streamsEnded .endStream) := by
  have hlog : (i.step .endStream).log = i.fanout.endStream.log := by simp [step]
  have haside : ∀ s ∈ (i.step .endStream).log.map Sighting.logged, s.isAside = true := by
    rw [hlog, List.forall_mem_map]
    exact Fanout.log_endStream hg hl
  have htells := Pass.tells_start i.fanout.config.silent
    (Fanout.contiguous_blocks hl).stop_le (Fanout.nodup_blocks h.live_nodup) haside
  rw [sightingsIn, if_pos (.inr ⟨rfl, rfl⟩), step_endStream (.inr hg), StepResult.call?_waiting,
    Fanout.opening_of_live hl]
  exact htells

/-- What is seen of a pass since the end of its stream tells how far its lanes have come. -/
theorem recorded_endStream (h : i.Sound) (hg : i.fanout.grouping.groups ≠ [])
    (hl : i.fanout.live ≠ []) (during : List Step) :
    ∀ q, (i.after (.endStream :: during)).pass? i.streamsEnded = some q → q.InStep ∧
      (Progress.waiting q).Recorded i.fanout.grouping.groups i.fanout.config.silent
        (i.sightings i.streamsEnded (.endStream :: during)) := by
  have hpass : (i.step .endStream).value.2.pass? i.streamsEnded = some i.fanout.opening := by
    rw [step_endStream (.inr hg), pass?_hold_self]
  have hopened := recorded_opening h hg hl
  have hconfig := i.takes_endStream.config_eq
  rw [← hconfig] at hopened ⊢
  exact recorded_after (h.step .endStream) hpass i.fanout.inStep_opening hopened during

/-- The last step of a pass is the last that is seen of it. -/
theorem sightings_of_ended (h : i.Sound) (xs ys : List Step) {result : Except FanoutError Report}
    (he : ((i.after xs).step s).value.1 = .ended n result) :
    i.sightings n (xs ++ s :: ys) = i.sightings n xs ++ (i.after xs).sightingsIn n s := by
  have ht := (i.after xs).takes_step s
  have hlt : n < ((i.after xs).step s).value.2.streamsEnded :=
    ht.lt_of_pass? (h.after xs) (by rw [he]; rfl)
  rw [sightings_append, sightings, sightings_eq_nil hlt (ht.pass?_of_ended he) ys, List.append_nil]

/-- What is seen of a pass that has ended tells how far its lanes have come in the end. The event
that it is booked with comes last, and with that step the counters rise by what its lanes have
counted. -/
theorem recorded_of_shown (h : i.Sound) (hg : i.fanout.grouping.groups ≠ [])
    (hl : i.fanout.live ≠ []) {during : List Step} {result : Except FanoutError Report}
    (hm : .ended i.streamsEnded result ∈ i.shown (.endStream :: during)) :
    ∃ lanes, (Progress.finished i.fanout.plan lanes).Recorded i.fanout.grouping.groups
        i.fanout.config.silent (i.sightings i.streamsEnded (.endStream :: during)) ∧
      lanes.map Lane.block = i.fanout.blocks ∧
      (logOf (i.sightings i.streamsEnded (.endStream :: during))).getLast? =
        some (Fanout.closing lanes) ∧
      (result = if Lane.failedChannels lanes = [] then
          .ok ⟨lanes.map Lane.assignment, i.fanout.plan.idle⟩
        else .error (.pushFailed (Lane.failedChannels lanes))) ∧
      i.raised Counters.unitsPushed i.streamsEnded (.endStream :: during) =
        Lane.totalPushed lanes ∧
      i.raised Counters.unitsDropped i.streamsEnded (.endStream :: during) =
        Lane.totalDropped lanes := by
  obtain ⟨xs, s, ys, rfl, he, -, -⟩ := exists_last_step (.inr hg) hm
  obtain ⟨p, a, hp, rfl, hend⟩ := step_ended (i.lt_streamsEnded xs) he
  have hfollows := follows_endStream h hg hl xs hp
  have hplan := Pass.plan?_resume (i.after (.endStream :: xs)).fanout.roster.contains
    (i.after (.endStream :: xs)).fanout.config.silent p a
  have hblocks := Pass.blocks_resume (i.after (.endStream :: xs)).fanout.roster.contains
    (i.after (.endStream :: xs)).fanout.config.silent p a
  rcases hend with ⟨plan, lanes, hresume, hresult, hfanout⟩ | ⟨gops, hresume, -⟩
  · -- Nothing is seen of the pass after its last step, and no counter rises by it before.
    have hseen : i.sightings i.streamsEnded
        (.endStream :: (xs ++ .resume i.streamsEnded a :: ys)) = _ :=
      sightings_of_ended h (.endStream :: xs) ys he
    have hraised (counter : Counters → Nat) :
        i.raised counter i.streamsEnded
            (.endStream :: (xs ++ .resume i.streamsEnded a :: ys)) =
          (counter ((i.after (.endStream :: xs)).fanout.booked lanes).counters : Int) -
            counter (i.after (.endStream :: xs)).fanout.counters :=
      hfanout ▸ raised_of_ended h (.endStream :: xs) ys he
    rw [sightingsIn_of_finished hp hresume he, ← List.append_assoc] at hseen
    rw [hresume] at hplan hblocks
    obtain rfl : plan = i.fanout.plan := Option.some.inj (hplan.trans hfollows.plan?_eq)
    exists lanes
    refine ⟨?_, hblocks.trans hfollows.blocks_eq, ?_, ?_, ?_, ?_⟩
    · obtain ⟨hstep, hrecorded⟩ := recorded_endStream h hg hl xs p hp
      have htells := Pass.tells_resume (i.after (.endStream :: xs)).fanout.roster.contains hrecorded
        hstep a
      rw [← i.config_after (.endStream :: xs), Progress.Tells, hresume] at htells
      rw [hseen, ← i.config_after (.endStream :: xs)]
      apply htells.aside
      unfold Fanout.closing
      split <;> rfl
    · rw [hseen, logOf_append]
      simp [logOf, Sighting.event?]
    · rw [hresult, Fanout.book_result]
    · rw [hraised]
      show ((_ + _ : Nat) : Int) - _ = _
      omega
    · rw [hraised]
      show ((_ + _ : Nat) : Int) - _ = _
      omega
  · rw [hresume] at hplan
    cases hplan.trans hfollows.plan?_eq

end Interleaving

end StreamFanout
