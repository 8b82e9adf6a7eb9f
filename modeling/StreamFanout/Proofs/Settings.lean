import StreamFanout.Proofs.Interleaving.Steps
import StreamFanout.Proofs.LogViews

/-!
Settings do not matter for distribution. Two fanouts that differ in their settings give back the
same and call the sink alike, and their logs look the same but for single units and, where the
leading texts of channel names differ, for names.
-/
namespace StreamFanout

namespace LogEvent

/-- All but the pushing of single units. -/
def unlessUnit : LogEvent → Option LogEvent
  | pushingUnit .. => none
  | e => some e

/-- All but the pushing of single units, without the names of registered channels. -/
def unnamed : LogEvent → Option LogEvent
  | pushingUnit .. => none
  | channelRegistered c _ channels => some (channelRegistered c "" channels)
  | e => some e

end LogEvent

/-- Single units are not seen, and neither is which of two settings names a channel. -/
structure Config.Veiled (config config' : Config) (seen : LogEvent → Option LogEvent) : Prop where
  unit : ∀ c pts, seen (.pushingUnit c pts) = none
  name : ∀ c channels, seen (.channelRegistered c (c.name config.channelPrefix) channels) =
    seen (.channelRegistered c (c.name config'.channelPrefix) channels)

/-- A call that is answered alike under two settings: it does not ask for them, and where names are
read in different ways it does not give a name. -/
structure HostCall.Neutral (config config' : Config) (call : HostCall) : Prop where
  ne_config : call ≠ .config
  ne_requestNamed : config'.channelPrefix = config.channelPrefix ∨
    ∀ name, call ≠ .requestNamed name

namespace Fanout

/-- Two fanouts that differ in nothing but their settings. -/
inductive Apart (config config' : Config) : Fanout → Fanout → Prop where
  | mk (roster : Roster) (grouping : Grouping) (counters : Counters) :
    Apart config config' ⟨config, roster, grouping, counters⟩ ⟨config', roster, grouping, counters⟩

namespace Apart

variable {config config' : Config} {f f' : Fanout} {seen : LogEvent → Option LogEvent}

theorem live_eq (h : Apart config config' f f') : f'.live = f.live := by
  cases h
  rfl

theorem stats_eq (h : Apart config config' f f') : f'.stats = f.stats := by
  cases h
  rfl

theorem arrive (h : Apart config config' f f') (u : AccessUnit) :
    (f.arrive u).Matches seen (Apart config config') (f'.arrive u) := by
  obtain ⟨roster, grouping, counters⟩ := h
  apply Logged.Matches.after rfl
  rintro ⟨result, grouping⟩
  cases result with
  | ok => exact .done ⟨roster, grouping, _⟩ _
  | error e => exact .after rfl fun _ => .done ⟨roster, grouping, _⟩ _

theorem arriveAll (h : Apart config config' f f') (us : List AccessUnit) :
    (f.arriveAll us).Matches seen (Apart config config') (f'.arriveAll us) := by
  induction us generalizing f f' with
  | nil => exact .done h _
  | cons u us ih =>
    apply (h.arrive u).bind
    intro r g g' hg
    apply (ih hg).bind
    rintro ⟨accepted, refused⟩ _ _ hrest
    cases r with
    | ok => exact .done hrest _
    | error e => exact .done hrest _

theorem request (h : Apart config config' f f') (hveiled : config.Veiled config' seen)
    (requested : Option Channel) :
    (f.request requested).Matches seen (Apart config config') (f'.request requested) := by
  obtain ⟨roster, grouping, counters⟩ := h
  unfold Fanout.request
  cases roster.register requested with
  | ok registered =>
    apply Logged.Matches.after (Logged.view_emit_congr (hveiled.name _ _))
    intro _
    exact .done ⟨registered.2, grouping, counters⟩ _
  | error e => exact .after rfl fun _ => .done ⟨roster, grouping, counters⟩ _

theorem requestNamed (h : Apart config config' f f') (hveiled : config.Veiled config' seen)
    (hlead : config'.channelPrefix = config.channelPrefix) (name : String) :
    (f.requestNamed name).Matches seen (Apart config config') (f'.requestNamed name) := by
  have hname : f'.config.channelPrefix = f.config.channelPrefix := by
    cases h
    exact hlead
  simp only [Fanout.requestNamed, hname]
  split
  · exact .after rfl fun _ => h.request hveiled _
  · exact h.request hveiled _

theorem release (h : Apart config config' f f') (c : Channel) :
    (f.release c).Matches seen (Apart config config') (f'.release c) := by
  obtain ⟨roster, grouping, counters⟩ := h
  unfold Fanout.release
  split
  · exact .after rfl fun _ => .done ⟨roster.unregister c, grouping, counters⟩ _
  · exact .done ⟨roster, grouping, counters⟩ _

theorem perform (h : Apart config config' f f') (hveiled : config.Veiled config' seen)
    {call : HostCall} (hcall : call.Neutral config config') :
    (f.perform call).Matches seen (Apart config config') (f'.perform call) := by
  cases call with
  | arrive u => exact (h.arrive u).bind fun _ _ _ hnext => .done hnext _
  | arriveAll us => exact (h.arriveAll us).bind fun _ _ _ hnext => .done hnext _
  | request c => exact (h.request hveiled c).bind fun _ _ _ hnext => .done hnext _
  | requestNamed name =>
    have hlead := hcall.ne_requestNamed.resolve_right fun hne => hne name rfl
    exact (h.requestNamed hveiled hlead name).bind fun _ _ _ hnext => .done hnext _
  | release c => exact (h.release c).bind fun _ _ _ hnext => .done hnext _
  | live => exact ⟨congrArg HostResult.live h.live_eq, rfl, h⟩
  | stats => exact ⟨congrArg HostResult.stats h.stats_eq, rfl, h⟩
  | config => exact absurd rfl hcall.ne_config

theorem follow (h : Apart config config' f f') (p : Progress) :
    (f.follow p).Matches seen (Apart config config') (f'.follow p) := by
  cases p with
  | waiting pass => exact .done h _
  | finished plan lanes =>
    obtain ⟨roster, grouping, counters⟩ := h
    apply Logged.Matches.bind (R := Apart config config')
    · unfold Fanout.book
      dsimp only
      split
      · exact .after rfl fun _ => .done ⟨roster, grouping, _⟩ _
      · exact .after rfl fun _ => .done ⟨roster, grouping, _⟩ _
    · intro result g g' hg
      exact .done hg _
  | discarded gops =>
    obtain ⟨roster, grouping, counters⟩ := h
    exact .done ⟨roster, grouping, _⟩ _

theorem endStream (h : Apart config config' f f') :
    f.endStream.Matches seen (Apart config config') f'.endStream := by
  obtain ⟨roster, grouping, counters⟩ := h
  apply Logged.Matches.after rfl
  intro gops
  apply Logged.Matches.after rfl
  intro _
  exact .after rfl fun _ => .done ⟨roster, {}, counters⟩ _

theorem resume (h : Apart config config' f f') (hveiled : config.Veiled config' seen) (pass : Pass)
    (answer : Answer) :
    (f.resume pass answer).Matches seen (Apart config config') (f'.resume pass answer) := by
  have hroster : f'.roster = f.roster := by
    cases h
    rfl
  unfold Fanout.resume
  rw [hroster]
  exact .after (Pass.view_resume hveiled.unit answer pass) fun p => h.follow p

end Apart

end Fanout

namespace Interleaving

/-- Two runs that have come to the same but for the settings: the same passes wait. -/
inductive Apart (config config' : Config) : Interleaving → Interleaving → Prop where
  | mk {f f' : Fanout} (fanout : f.Apart config config' f') (inFlight : List (Nat × Pass))
    (streamsEnded : Nat) :
    Apart config config' ⟨f, inFlight, streamsEnded⟩ ⟨f', inFlight, streamsEnded⟩

namespace Apart

variable {config config' : Config} {i j : Interleaving} {seen : LogEvent → Option LogEvent}

theorem fanout_apart (h : Apart config config' i j) : i.fanout.Apart config config' j.fanout := by
  cases h
  assumption

/-- A step shows the same under both settings, and its log looks the same. -/
theorem step (h : Apart config config' i j) (hveiled : config.Veiled config' seen) {s : Step}
    (hs : ∀ call, s = .call call → call.Neutral config config') :
    (i.step s).Matches seen (Apart config config') (j.step s) := by
  obtain ⟨hf, inFlight, streamsEnded⟩ := h
  cases s with
  | call call =>
    apply (hf.perform hveiled (hs call rfl)).bind
    intro result g g' hg
    exact .done ⟨hg, inFlight, streamsEnded⟩ _
  | endStream =>
    apply hf.endStream.bind
    intro outcome g g' hg
    cases outcome with
    | suspended p => exact .done ⟨hg, _, _⟩ _
    | ended result => exact .done ⟨hg, _, _⟩ _
  | resume n answer =>
    unfold Interleaving.step
    dsimp only
    split
    · apply (hf.resume hveiled _ answer).bind
      intro outcome g g' hg
      cases outcome with
      | suspended p => exact .done ⟨hg, _, _⟩ _
      | ended result => exact .done ⟨hg, _, _⟩ _
    · exact .done ⟨hf, inFlight, streamsEnded⟩ _
  | abandon n =>
    unfold Interleaving.step
    dsimp only
    split
    · exact .done ⟨hf, _, _⟩ _
    · exact .done ⟨hf, inFlight, streamsEnded⟩ _

/-- So does a run. -/
theorem run (h : Apart config config' i j) (hveiled : config.Veiled config' seen)
    {steps : List Step} (hsteps : ∀ call, .call call ∈ steps → call.Neutral config config') :
    (j.trace steps).map (Logged.view seen) = (i.trace steps).map (Logged.view seen) ∧
      Apart config config' (i.after steps) (j.after steps) := by
  induction steps generalizing i j with
  | nil => exact ⟨rfl, h⟩
  | cons s steps ih =>
    have hs : ∀ call, s = .call call → call.Neutral config config' := by
      rintro call rfl
      exact hsteps call List.mem_cons_self
    obtain ⟨hvalue, hview, hnext⟩ := h.step hveiled hs
    obtain ⟨htrace, hafter⟩ := ih hnext fun call hc => hsteps call (List.mem_cons_of_mem s hc)
    constructor
    · simp only [trace, List.map_cons, htrace, Logged.view, hvalue, hview]
    · exact hafter

end Apart

/-- A run shows the same from either start, its logs look the same, and after each step the live
channels and the statistics are the same. -/
structure LookAlike (seen : LogEvent → Option LogEvent) (steps : List Step) (i j : Interleaving) :
    Prop where
  trace_eq : (j.trace steps).map (Logged.view seen) = (i.trace steps).map (Logged.view seen)
  live_eq : ∀ k, (j.after (steps.take k)).fanout.live = (i.after (steps.take k)).fanout.live
  stats_eq : ∀ k, (j.after (steps.take k)).fanout.stats = (i.after (steps.take k)).fanout.stats

theorem Apart.lookAlike {config config' : Config} {i j : Interleaving}
    {seen : LogEvent → Option LogEvent} (h : Apart config config' i j)
    (hveiled : config.Veiled config' seen) {steps : List Step}
    (hsteps : ∀ call, .call call ∈ steps → call.Neutral config config') :
    LookAlike seen steps i j := by
  have happart (k : Nat) : Fanout.Apart config config' (i.after (steps.take k)).fanout
      (j.after (steps.take k)).fanout :=
    (h.run hveiled fun call hc => hsteps call (List.mem_of_mem_take hc)).2.fanout_apart
  constructor
  · exact (h.run hveiled hsteps).1
  · exact fun k => (happart k).live_eq
  · exact fun k => (happart k).stats_eq

/-- Settings do not influence distribution. Under two settings of one leading text of channel names
a run that does not read the settings back gives the same results, makes the same calls of the sink
and has the same live channels and statistics after each step, and logs the same but for single
units. Under any two settings the same holds of a run without named requests, but for the names of
registered channels in the log. -/
theorem settings_do_not_matter (config config' : Config) (steps : List Step)
    (hread : .call .config ∉ steps) :
    (config'.channelPrefix = config.channelPrefix →
      LookAlike LogEvent.unlessUnit steps (fresh config) (fresh config')) ∧
    ((∀ name, .call (.requestNamed name) ∉ steps) →
      LookAlike LogEvent.unnamed steps (fresh config) (fresh config')) := by
  have h : Apart config config' (fresh config) (fresh config') := ⟨⟨{}, {}, {}⟩, [], 0⟩
  have hconfig : ∀ call, .call call ∈ steps → call ≠ .config := by
    rintro call hc rfl
    exact hread hc
  constructor
  · intro hlead
    apply h.lookAlike
    · exact ⟨fun _ _ => rfl, fun c channels => by rw [hlead]⟩
    · exact fun call hc => ⟨hconfig call hc, .inl hlead⟩
  · intro hnamed
    apply h.lookAlike
    · exact ⟨fun _ _ => rfl, fun _ _ => rfl⟩
    · intro call hc
      constructor
      · exact hconfig call hc
      · right
        rintro name rfl
        exact hnamed name hc

/-- A stream over two channels, of which one is released while the other one is served: single units
and names are logged in different ways, and nothing else differs. -/
theorem settings_do_not_matter_released :
    let frame (pts : UInt64) : AccessUnit := { pts, payload := ⟨#[1]⟩, isKeyframe := true }
    let steps : List Step := [.call (.request none), .call (.request (some ⟨7⟩)),
      .call (.arriveAll [frame 0, frame 1]), .endStream, .resume 0, .call (.release ⟨7⟩), .resume 0,
      .resume 0, .resume 0, .resume 0, .resume 0, .call .stats]
    let config' : Config := { channelPrefix := "out_0", silent := false, capacity := 1 }
    .call .config ∉ steps ∧
      ((fresh config').trace steps).map Logged.log ≠ ((fresh {}).trace steps).map Logged.log ∧
      LookAlike LogEvent.unlessUnit steps (fresh {}) (fresh { silent := false }) ∧
      LookAlike LogEvent.unnamed steps (fresh {}) (fresh config') := by
  intro frame steps config'
  have hread : .call .config ∉ steps := by decide
  have hnamed : ∀ name, .call (.requestNamed name) ∉ steps := by
    intro name
    simp [steps]
  have hloud := (settings_do_not_matter {} { silent := false } steps hread).1 rfl
  have hrenamed := (settings_do_not_matter {} config' steps hread).2 hnamed
  exact ⟨hread, by decide +kernel, hloud, hrenamed⟩

end Interleaving

end StreamFanout
