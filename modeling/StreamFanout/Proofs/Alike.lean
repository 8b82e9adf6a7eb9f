import StreamFanout.Proofs.Distribution.Tallies
import StreamFanout.Proofs.EndOfStream
import StreamFanout.Proofs.HostCall

/-!
What passes and calls of the host read. A pass looks up its own channels and nothing else of the
registry, and a call of the host does not look at what passes have counted: two fanouts that are
alike in these things show and log the same.
-/
namespace StreamFanout

namespace Pass

variable {live live' : Channel → Bool} (silent : Bool)

/-- A pass goes on in the same way under two registries in which its channels are alike. -/
theorem resume_congr {p : Pass} (h : ∀ l ∈ p.lanes, live l.channel = live' l.channel)
    (answer : Answer) : resume live silent answer p = resume live' silent answer p := by
  cases p with
  | looking plan served lane gop upcoming round =>
    rw [resume, resume, h lane (List.mem_append_right _ List.mem_cons_self)]
  | _ => rfl

/-- The lanes of a pass stand on the same channels at its next stop. -/
theorem exists_lane_of_resume {p p' : Pass} {answer : Answer}
    (h : (resume live silent answer p).value = .waiting p') {l : Lane} (hl : l ∈ p'.lanes) :
    ∃ m ∈ p.lanes, m.channel = l.channel := by
  have hblocks := blocks_resume live silent p answer
  rw [h] at hblocks
  have hb : l.block ∈ p.blocks := hblocks ▸ List.mem_map_of_mem hl
  obtain ⟨m, hm, he⟩ := List.mem_map.mp hb
  exact ⟨m, hm, congrArg Block.channel he⟩

end Pass

namespace Fanout

/-- All that the calls of the host read and write, a reading of the statistics apart. -/
def intake (f : Fanout) : Config × Roster × Grouping × Nat × Nat :=
  (f.config, f.roster, f.grouping, f.counters.unitsIngested, f.counters.unitsRejected)

def outcomes (f : Fanout) : Nat × Nat × Nat :=
  (f.counters.unitsPushed, f.counters.unitsDropped, f.counters.sessionsDistributed)

variable {f f' : Fanout}

theorem eq_of_intake (h : f.intake = f'.intake) (ho : f.outcomes = f'.outcomes) : f = f' := by
  obtain ⟨config, roster, grouping, counters⟩ := f
  obtain ⟨config', roster', grouping', counters'⟩ := f'
  obtain ⟨ingested, rejected, pushed, dropped, sessions⟩ := counters
  obtain ⟨ingested', rejected', pushed', dropped', sessions'⟩ := counters'
  simp only [intake, outcomes, Prod.mk.injEq] at h ho
  obtain ⟨rfl, rfl, rfl, rfl, rfl⟩ := h
  obtain ⟨rfl, rfl, rfl⟩ := ho
  rfl

/-- Two computations show and log the same and leave the same intake. -/
structure Alike {α : Type} (x y : Logged (α × Fanout)) : Prop where
  value_eq : x.value.1 = y.value.1
  log_eq : x.log = y.log
  intake_eq : x.value.2.intake = y.value.2.intake

/-- Fanouts of one intake differ in the counters of passes. -/
theorem exists_counters (h : f.intake = f'.intake) : ∃ counters : Counters,
    counters.unitsIngested = f.counters.unitsIngested ∧
      counters.unitsRejected = f.counters.unitsRejected ∧ f' = { f with counters } := by
  simp only [intake, Prod.mk.injEq] at h
  obtain ⟨hc, hr, hg, hi, hj⟩ := h
  exact ⟨f'.counters, hi.symm, hj.symm, by rw [hc, hr, hg]⟩

theorem alike_arrive (h : f.intake = f'.intake) (u : AccessUnit) :
    Alike (f.arrive u) (f'.arrive u) := by
  obtain ⟨counters, hi, hr, rfl⟩ := exists_counters h
  constructor
  · rw [arrive_value, arrive_value]
  · simp only [arrive, Logged.log_bind]
    cases (f.grouping.ingest u).value.1 <;> rfl
  · rw [arrive_value, arrive_value]
    cases (f.grouping.ingest u).value.1 <;> simp [intake, countArrival, hi, hr]

theorem alike_arriveAll (h : f.intake = f'.intake) (us : List AccessUnit) :
    Alike (f.arriveAll us) (f'.arriveAll us) := by
  induction us generalizing f f' with
  | nil => exact ⟨rfl, rfl, h⟩
  | cons u us ih =>
    have hu := alike_arrive h u
    have hus := ih hu.intake_eq
    have hlog (g : Fanout) : (g.arriveAll (u :: us)).log =
        (g.arrive u).log ++ ((g.arrive u).value.2.arriveAll us).log := by
      simp only [arriveAll, Logged.log_bind]
      cases (g.arrive u).value.1 <;> simp
    constructor
    · simp only [arriveAll, Logged.value_bind, hu.value_eq, hus.value_eq]
      cases (f'.arrive u).value.1 <;> rfl
    · rw [hlog, hlog, hu.log_eq, hus.log_eq]
    · rw [arriveAll_cons_state, arriveAll_cons_state]
      exact hus.intake_eq

theorem alike_request (h : f.intake = f'.intake) (requested : Option Channel) :
    Alike (f.request requested) (f'.request requested) := by
  obtain ⟨counters, hi, hr, rfl⟩ := exists_counters h
  simp only [request]
  cases f.roster.register requested with
  | ok p => exact ⟨rfl, rfl, by simp [intake, hi, hr]⟩
  | error e => exact ⟨rfl, rfl, h⟩

theorem alike_requestNamed (h : f.intake = f'.intake) (name : String) :
    Alike (f.requestNamed name) (f'.requestNamed name) := by
  have hc : f'.config = f.config := (congrArg Prod.fst h).symm
  have hrequest := alike_request h (Channel.ofName? f.config.channelPrefix name)
  constructor
  · simp only [requestNamed, hc]
    split <;> exact hrequest.value_eq
  · simp only [requestNamed, hc]
    split
    · rw [Logged.log_bind, Logged.log_bind, hrequest.log_eq]
    · exact hrequest.log_eq
  · rw [requestNamed_state, requestNamed_state, hc]
    exact hrequest.intake_eq

theorem alike_release (h : f.intake = f'.intake) (c : Channel) :
    Alike (f.release c) (f'.release c) := by
  obtain ⟨counters, hi, hr, rfl⟩ := exists_counters h
  simp only [release]
  split
  · exact ⟨rfl, rfl, by simp [intake, hi, hr]⟩
  · exact ⟨rfl, rfl, h⟩

/-- A call of the host does the same whatever passes have counted, unless it reads what they have
counted. -/
theorem alike_perform (h : f.intake = f'.intake) {call : HostCall} (hc : call ≠ .stats) :
    Alike (f.perform call) (f'.perform call) := by
  have wrap {α : Type} (result : α → HostResult) {x y : Logged (α × Fanout)} (hxy : Alike x y) :
      Alike (do let (r, g) ← x; pure (result r, g)) (do let (r, g) ← y; pure (result r, g)) := by
    refine ⟨congrArg result hxy.value_eq, ?_, hxy.intake_eq⟩
    rw [Logged.log_bind, Logged.log_bind, hxy.log_eq]
    rfl
  cases call with
  | arrive u => exact wrap .arrived (alike_arrive h u)
  | arriveAll us =>
    exact wrap (fun counted => .arrivedAll counted.1 counted.2) (alike_arriveAll h us)
  | request c => exact wrap .requested (alike_request h c)
  | requestNamed name => exact wrap .requested (alike_requestNamed h name)
  | release c => exact wrap .released (alike_release h c)
  | live =>
    have hr : f.roster = f'.roster := congrArg (fun i => i.2.1) h
    exact ⟨congrArg (fun r : Roster => HostResult.live r.live) hr, rfl, h⟩
  | stats => exact absurd rfl hc
  | config =>
    have hc : f.config = f'.config := congrArg Prod.fst h
    exact ⟨congrArg HostResult.config hc, rfl, h⟩

theorem outcomes_perform (f : Fanout) (call : HostCall) :
    (f.perform call).value.2.outcomes = f.outcomes := by
  have arrive (f : Fanout) (u : AccessUnit) : (f.arrive u).value.2.outcomes = f.outcomes := by
    rw [arrive_value]
    cases (f.grouping.ingest u).value.1 <;> rfl
  cases call with
  | arrive u => exact arrive f u
  | arriveAll us =>
    show (f.arriveAll us).value.2.outcomes = f.outcomes
    induction us generalizing f with
    | nil => rfl
    | cons u us ih => rw [arriveAll_cons_state, ih, arrive]
  | request c =>
    obtain ⟨roster, hs, -⟩ := f.request_state c
    show (f.request c).value.2.outcomes = f.outcomes
    rw [hs]
    rfl
  | requestNamed name =>
    obtain ⟨roster, hs, -⟩ := f.request_state (Channel.ofName? f.config.channelPrefix name)
    show (f.requestNamed name).value.2.outcomes = f.outcomes
    rw [requestNamed_state, hs]
    rfl
  | release c =>
    obtain ⟨roster, hs, -⟩ := f.release_state c
    show (f.release c).value.2.outcomes = f.outcomes
    rw [hs]
    rfl
  | live | stats | config => rfl

/-- What the end of a pass gives back and logs does not depend on the fanout, and it counts the
same everywhere. -/
theorem follow_congr (f f' : Fanout) (p : Progress) :
    (f.follow p).value.1 = (f'.follow p).value.1 ∧ (f.follow p).log = (f'.follow p).log ∧
      (f.outcomes = f'.outcomes →
        (f.follow p).value.2.outcomes = (f'.follow p).value.2.outcomes) := by
  cases p with
  | waiting p => exact ⟨rfl, rfl, id⟩
  | finished plan lanes =>
    have hresult : (f.book plan lanes).value.1 = (f'.book plan lanes).value.1 := by
      rw [book_result, book_result]
    have hlog : (f.book plan lanes).log = (f'.book plan lanes).log := by
      simp only [book]
      split <;> rfl
    refine ⟨congrArg Outcome.ended hresult, ?_, fun h => ?_⟩
    · rw [follow, follow, Logged.log_bind, Logged.log_bind, hlog]
      rfl
    · show (f.book plan lanes).value.2.outcomes = (f'.book plan lanes).value.2.outcomes
      simp only [outcomes, Prod.mk.injEq] at h
      obtain ⟨hp, hd, hs⟩ := h
      rw [book_state, book_state]
      simp only [outcomes, booked, hp, hd, hs]
  | discarded gops =>
    refine ⟨rfl, rfl, fun h => ?_⟩
    simp only [outcomes, Prod.mk.injEq] at h
    obtain ⟨hp, hd, hs⟩ := h
    simp only [follow, discard, outcomes, Logged.value_pure, hp, hd, hs]

/-- A pass shows and logs the same under two fanouts in which its channels are alike. -/
theorem resume_congr {p : Pass} (hc : f.config = f'.config)
    (h : ∀ l ∈ p.lanes, f.roster.contains l.channel = f'.roster.contains l.channel)
    (answer : Answer) :
    (f.resume p answer).value.1 = (f'.resume p answer).value.1 ∧
      (f.resume p answer).log = (f'.resume p answer).log ∧
      (f.outcomes = f'.outcomes →
        (f.resume p answer).value.2.outcomes = (f'.resume p answer).value.2.outcomes) := by
  have hp := Pass.resume_congr f.config.silent h answer
  obtain ⟨hvalue, hlog, houtcomes⟩ := follow_congr f f'
    (p.resume f'.roster.contains f'.config.silent answer).value
  rw [hc] at hp
  rw [resume, resume, hc, hp]
  refine ⟨hvalue, ?_, houtcomes⟩
  rw [Logged.log_bind, Logged.log_bind, hlog]

end Fanout

end StreamFanout
