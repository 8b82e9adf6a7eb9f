import StreamFanout.Fanout
import StreamFanout.Proofs.Channel.Roster
import StreamFanout.Proofs.Stream.KeyframeRuns

/-!
What one call of the host does to a fanout: it takes in units, or it changes the live channels.
No call touches the settings or the counters of finished passes.
-/
namespace StreamFanout

def HostCall.arrivals : HostCall → List AccessUnit
  | .arrive u => [u]
  | .arriveAll us => us
  | _ => []

namespace Fanout

/-- `f'` is `f` after some accepted units, with nothing pushed or dropped. -/
structure Absorbs (f : Fanout) (us : List AccessUnit) (f' : Fanout) : Prop where
  config_eq : f'.config = f.config
  groups : ∀ vs, f.grouping.Groups vs → f'.grouping.Groups (vs ++ us.map AccessUnit.marked)
  ingested_eq : f'.counters.unitsIngested = f.counters.unitsIngested + us.length
  pushed_eq : f'.counters.unitsPushed = f.counters.unitsPushed
  dropped_eq : f'.counters.unitsDropped = f.counters.unitsDropped

namespace Absorbs

variable {f f' f'' : Fanout} {us vs : List AccessUnit}

theorem of_roster (f : Fanout) (roster : Roster) : f.Absorbs [] { f with roster } := by
  constructor <;> simp

theorem trans (h : f.Absorbs us f') (h' : f'.Absorbs vs f'') : f.Absorbs (us ++ vs) f'' := by
  constructor
  · rw [h'.config_eq, h.config_eq]
  · intro ws hw
    simpa using h'.groups _ (h.groups ws hw)
  · rw [h'.ingested_eq, h.ingested_eq, List.length_append, Nat.add_assoc]
  · rw [h'.pushed_eq, h.pushed_eq]
  · rw [h'.dropped_eq, h.dropped_eq]

end Absorbs

theorem arrive_value (f : Fanout) (u : AccessUnit) :
    (f.arrive u).value =
      ((f.grouping.ingest u).value.1,
        { f with
          grouping := (f.grouping.ingest u).value.2
          counters := countArrival f.counters (f.grouping.ingest u).value.1 }) := by
  obtain ⟨config, roster, grouping, counters⟩ := f
  simp only [arrive, Logged.value_bind]
  cases (grouping.ingest u).value.1 <;> rfl

theorem arrive_absorbs (f : Fanout) (u : AccessUnit) :
    f.Absorbs (accepted [u]) (f.arrive u).value.2 := by
  rw [arrive_value]
  have hg := fun vs (h : f.grouping.Groups vs) => h.ingest u
  by_cases hu : u.size = 0
  · have ha : accepted [u] = [] := by simp [accepted, hu]
    constructor <;> simp [Grouping.ingest_refused hu, countArrival, ha]
  · have ha : accepted [u] = [u] := by simp [accepted, Nat.pos_iff_ne_zero, hu]
    refine ⟨rfl, hg, ?_, ?_, ?_⟩ <;> simp [Grouping.ingest_accepted hu, countArrival, ha]

theorem arriveAll_cons_state (f : Fanout) (u : AccessUnit) (us : List AccessUnit) :
    (f.arriveAll (u :: us)).value.2 = ((f.arrive u).value.2.arriveAll us).value.2 := by
  simp only [arriveAll, Logged.value_bind]
  cases (f.arrive u).value.1 <;> rfl

theorem arriveAll_absorbs (f : Fanout) (us : List AccessUnit) :
    f.Absorbs (accepted us) (f.arriveAll us).value.2 := by
  induction us generalizing f with
  | nil => exact Absorbs.of_roster f f.roster
  | cons u us ih =>
    rw [arriveAll_cons_state, ← List.singleton_append, accepted_append]
    exact (f.arrive_absorbs u).trans (ih _)

theorem roster_arriveAll (f : Fanout) (us : List AccessUnit) :
    (f.arriveAll us).value.2.roster = f.roster := by
  induction us generalizing f with
  | nil => rfl
  | cons u us ih => rw [arriveAll_cons_state, ih, arrive_value]

/-- A request leaves all but the live channels, and it changes those as registration does. -/
theorem request_state (f : Fanout) (requested : Option Channel) :
    ∃ roster, (f.request requested).value.2 = { f with roster } ∧
      (roster = f.roster ∨ ∃ c, f.roster.register requested = .ok (c, roster)) := by
  rw [request]
  cases hr : f.roster.register requested with
  | ok p => exact ⟨p.2, rfl, .inr ⟨p.1, rfl⟩⟩
  | error e => exact ⟨f.roster, rfl, .inl rfl⟩

theorem release_state (f : Fanout) (c : Channel) :
    ∃ roster, (f.release c).value.2 = { f with roster } ∧
      (roster = f.roster ∨ roster = f.roster.unregister c) := by
  rw [release]
  split
  · exact ⟨f.roster.unregister c, rfl, .inr rfl⟩
  · exact ⟨f.roster, rfl, .inl rfl⟩

theorem requestNamed_state (f : Fanout) (name : String) :
    (f.requestNamed name).value.2 =
      (f.request (Channel.ofName? f.config.channelPrefix name)).value.2 := by
  simp only [requestNamed]
  split <;> rfl

/-- Every call takes in the accepted ones of the units that it offers, and does nothing else to
what is buffered and counted. -/
theorem perform_absorbs (f : Fanout) (call : HostCall) :
    f.Absorbs (accepted call.arrivals) (f.perform call).value.2 := by
  cases call with
  | arrive u => exact f.arrive_absorbs u
  | arriveAll us => exact f.arriveAll_absorbs us
  | request c =>
    obtain ⟨roster, hs, -⟩ := f.request_state c
    show f.Absorbs [] (f.request c).value.2
    rw [hs]
    exact Absorbs.of_roster f roster
  | requestNamed name =>
    obtain ⟨roster, hs, -⟩ := f.request_state (Channel.ofName? f.config.channelPrefix name)
    show f.Absorbs [] (f.requestNamed name).value.2
    rw [requestNamed_state, hs]
    exact Absorbs.of_roster f roster
  | release c =>
    obtain ⟨roster, hs, -⟩ := f.release_state c
    show f.Absorbs [] (f.release c).value.2
    rw [hs]
    exact Absorbs.of_roster f roster
  | live => exact Absorbs.of_roster f f.roster
  | stats => exact Absorbs.of_roster f f.roster
  | config => exact Absorbs.of_roster f f.roster

/-- What a call does to the live channels: nothing, a registration or a removal. -/
theorem perform_roster (f : Fanout) (call : HostCall) :
    (f.perform call).value.2.roster = f.roster ∨
      (∃ requested c, f.roster.register requested = .ok (c, (f.perform call).value.2.roster)) ∨
      ∃ c, call = .release c ∧ (f.perform call).value.2.roster = f.roster.unregister c := by
  have request (g : Logged (Except FanoutError Channel × Fanout)) (requested : Option Channel)
      (hg : g.value.2 = (f.request requested).value.2) :
      g.value.2.roster = f.roster ∨
        ∃ c, f.roster.register requested = .ok (c, g.value.2.roster) := by
    obtain ⟨roster, hs, hr⟩ := f.request_state requested
    rw [hg, hs]
    exact hr
  cases call with
  | arrive u => exact .inl (congrArg (fun p => p.2.roster) (f.arrive_value u))
  | arriveAll us => exact .inl (f.roster_arriveAll us)
  | request c =>
    rcases request (f.request c) c rfl with h | ⟨d, h⟩
    · exact .inl h
    · exact .inr (.inl ⟨c, d, h⟩)
  | requestNamed name =>
    rcases request (f.requestNamed name) _ (f.requestNamed_state name) with h | ⟨d, h⟩
    · exact .inl h
    · exact .inr (.inl ⟨_, d, h⟩)
  | release c =>
    obtain ⟨roster, hs, hr⟩ := f.release_state c
    have hp : (f.perform (.release c)).value.2.roster = roster := congrArg Fanout.roster hs
    rw [hp]
    rcases hr with hr | hr
    · exact .inl hr
    · exact .inr (.inr ⟨c, rfl, hr⟩)
  | live => exact .inl rfl
  | stats => exact .inl rfl
  | config => exact .inl rfl

theorem nodup_live_perform {f : Fanout} (hf : f.live.Nodup) (call : HostCall) :
    (f.perform call).value.2.live.Nodup := by
  rcases f.perform_roster call with h | ⟨_, _, h⟩ | ⟨c, _, h⟩
  · rwa [live, h]
  · exact Roster.nodup_register hf h
  · rw [live, h]
    exact Roster.nodup_unregister hf c

/-- Only its release takes a channel off the list. -/
theorem mem_live_perform {f : Fanout} {call : HostCall} {c : Channel} (hc : c ∈ f.live)
    (hcall : call ≠ .release c) : c ∈ (f.perform call).value.2.live := by
  rcases f.perform_roster call with h | ⟨_, _, h⟩ | ⟨d, hd, h⟩
  · rwa [live, h]
  · rw [live, (Roster.register_ok h).2]
    exact List.mem_append_left _ hc
  · rw [live, h]
    exact Roster.mem_unregister hc fun hcd => hcall (by rw [hd, hcd])

end Fanout

end StreamFanout
