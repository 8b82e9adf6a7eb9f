import StreamFanout.Proofs.Interleaving.Steps
import StreamFanout.Script.Rehearsal

/-!
A rehearsal is a run. The host acts from inside the calls of a scripted sink, so passes nest, and
those in flight are the passes of the scenes with the innermost first. Single steps then do all that
the rehearsal does, and they log and show the same.
-/
namespace StreamFanout

/-- What is seen of a call at the sink. Ends of stream may be hidden. -/
def SinkCall.seen (showsEnds : Bool) : SinkCall → List SinkEvent
  | push channel unit => [.pushed channel unit]
  | endOfStream channel => if showsEnds then [.streamEnded channel] else []

def SinkCall.seenAnswer : SinkCall → Answer → List SinkEvent
  | push channel _, .refused reason => [.refused channel reason]
  | _, _ => []

def StepResult.seen (showsEnds : Bool) : Step → StepResult → List SinkEvent
  | .call call, called result => [.acted (.call call) result]
  | _, waiting _ call => call.toList.flatMap (SinkCall.seen showsEnds)
  | _, ended _ result => [.acted .endStream (.streamEnded result)]
  | _, _ => []

def Outcome.seen (showsEnds : Bool) : Outcome → List SinkEvent
  | suspended pass => pass.call?.toList.flatMap (SinkCall.seen showsEnds)
  | ended result => [.acted .endStream (.streamEnded result)]

namespace Cue

def pass? : Cue → Option Pass
  | outcome o => o.pass?
  | scene s => some s.pass

def seen (showsEnds : Bool) : Cue → List SinkEvent
  | outcome o => o.seen showsEnds
  | scene _ => []

end Cue

namespace Interleaving

def seenAnswer (i : Interleaving) : Step → List SinkEvent
  | .resume pass answer => ((i.pass? pass).bind Pass.call?).toList.flatMap (·.seenAnswer answer)
  | _ => []

/-- What is seen of a run at the sink, with the actions of the host. -/
def seen (showsEnds : Bool) (i : Interleaving) : List Step → List SinkEvent
  | [] => []
  | s :: steps =>
    let taken := (i.step s).value
    i.seenAnswer s ++ taken.1.seen showsEnds s ++ taken.2.seen showsEnds steps

/-- The passes in flight are the given ones, the one whose stream ended last first. -/
structure Nested (i : Interleaving) (passes : List Pass) : Prop where
  passes_eq : i.inFlight.map Prod.snd = passes
  descends : (i.streamsEnded :: i.inFlight.map Prod.fst).Pairwise (· > ·)

/-- Some steps lead to a fanout and to passes in flight, with what they log and show. -/
def Reaches (showsEnds : Bool) (i : Interleaving) (log : List LogEvent) (events : List SinkEvent)
    (f : Fanout) (passes : List Pass) : Prop :=
  ∃ steps, (i.trace steps).flatMap Logged.log = log ∧ i.seen showsEnds steps = events ∧
    (i.after steps).fanout = f ∧ (i.after steps).Nested passes

variable {showsEnds : Bool} {i : Interleaving} {n : Nat} {p : Pass} {passes : List Pass}
  {log : List LogEvent} {events : List SinkEvent} {f : Fanout}

theorem seen_append (showsEnds : Bool) (i : Interleaving) (xs ys : List Step) :
    i.seen showsEnds (xs ++ ys) = i.seen showsEnds xs ++ (i.after xs).seen showsEnds ys := by
  induction xs generalizing i with
  | nil => rfl
  | cons s xs ih => simp [seen, after, ih]

theorem Reaches.refl (h : i.Nested passes) : i.Reaches showsEnds [] [] i.fanout passes :=
  ⟨[], rfl, rfl, rfl, h⟩

/-- What is reached from where some steps lead is reached by these steps and then the others. -/
theorem Reaches.trans (h : i.Reaches showsEnds log events f passes) :
    ∃ j : Interleaving, j.fanout = f ∧ j.Nested passes ∧
      ∀ {log' : List LogEvent} {events' : List SinkEvent} {f' : Fanout} {passes' : List Pass},
        j.Reaches showsEnds log' events' f' passes' →
        i.Reaches showsEnds (log ++ log') (events ++ events') f' passes' := by
  obtain ⟨xs, hlog, hevents, hf, hp⟩ := h
  refine ⟨i.after xs, hf, hp, fun ⟨ys, hlog', hevents', hf', hp'⟩ => ⟨xs ++ ys, ?_, ?_, ?_, ?_⟩⟩
  · rw [trace_append, List.flatMap_append, hlog, hlog']
  · rw [seen_append, hevents, hevents']
  · rw [after_append, hf']
  · rw [after_append]
    exact hp'

theorem reaches_step (i : Interleaving) (showsEnds : Bool) (s : Step)
    (h : (i.step s).value.2.Nested passes) :
    i.Reaches showsEnds (i.step s).log (i.seenAnswer s ++ (i.step s).value.1.seen showsEnds s)
      (i.step s).value.2.fanout passes :=
  ⟨[s], by simp [trace], by simp [seen], rfl, h⟩

theorem land_eq_self (h : ∀ e ∈ i.inFlight, e.1 ≠ n) : i.land n = i := by
  have hfilter : i.inFlight.filter (·.1 ≠ n) = i.inFlight :=
    List.filter_eq_self.mpr fun e he => decide_eq_true (h e he)
  rw [land, hfilter]

/-- What has become of a pass takes its place within the passes around it. -/
theorem reaches_follow {s : Step} {j : Interleaving} {o : Outcome}
    (hs : (i.step s).value = j.follow n o) (hp : (j.land n).inFlight.map Prod.snd = passes)
    (hd : (j.streamsEnded :: n :: (j.land n).inFlight.map Prod.fst).Pairwise (· > ·)) :
    i.Reaches showsEnds (i.step s).log (i.seenAnswer s ++ o.seen showsEnds) j.fanout
      (o.pass?.toList ++ passes) := by
  have hseen : (i.step s).value.1.seen showsEnds s = o.seen showsEnds := by
    rw [hs]
    cases o <;> cases s <;> rfl
  have hnested : (i.step s).value.2.Nested (o.pass?.toList ++ passes) := by
    rw [hs]
    cases o with
    | suspended p => exact ⟨congrArg (p :: ·) hp, hd⟩
    | ended result => exact ⟨hp, hd.sublist ((List.sublist_cons_self _ _).cons_cons _)⟩
  have hstep := i.reaches_step showsEnds s hnested
  rwa [hseen, hs, fanout_follow] at hstep

theorem Nested.call (h : i.Nested passes) (showsEnds : Bool) (c : HostCall) :
    i.Reaches showsEnds (i.fanout.perform c).log
      [.acted (.call c) (i.fanout.perform c).value.1] (i.fanout.perform c).value.2 passes := by
  have hlog : (i.step (.call c)).log = (i.fanout.perform c).log := by simp [step]
  rw [← hlog]
  exact i.reaches_step showsEnds (.call c) ⟨h.passes_eq, h.descends⟩

theorem Nested.endStream (h : i.Nested passes) (showsEnds : Bool) :
    i.Reaches showsEnds i.fanout.endStream.log (i.fanout.endStream.value.1.seen showsEnds)
      i.fanout.endStream.value.2 (i.fanout.endStream.value.1.pass?.toList ++ passes) := by
  have hlog : (i.step .endStream).log = i.fanout.endStream.log := by simp [step]
  let begun : Interleaving := { i with
    fanout := i.fanout.endStream.value.2
    streamsEnded := i.streamsEnded + 1 }
  have hlt := (List.pairwise_cons.mp h.descends).1
  have hland : begun.land i.streamsEnded = begun :=
    land_eq_self fun e he => Nat.ne_of_lt (hlt e.1 (List.mem_map_of_mem he))
  rw [← hlog]
  refine reaches_follow (s := .endStream) (j := begun) rfl ?_ ?_ <;> rw [hland]
  · exact h.passes_eq
  refine List.pairwise_cons.mpr ⟨fun n hn => ?_, h.descends⟩
  rcases List.mem_cons.mp hn with rfl | hn
  · exact Nat.lt_succ_self _
  · exact Nat.lt_succ_of_lt (hlt n hn)

theorem Nested.resume (h : i.Nested (p :: passes)) (showsEnds : Bool) (a : Answer) :
    i.Reaches showsEnds (i.fanout.resume p a).log
      (p.call?.toList.flatMap (·.seenAnswer a) ++ (i.fanout.resume p a).value.1.seen showsEnds)
      (i.fanout.resume p a).value.2
      ((i.fanout.resume p a).value.1.pass?.toList ++ passes) := by
  obtain ⟨⟨n, q⟩, flights, hi, rfl, rfl⟩ := List.map_eq_cons_iff.mp h.passes_eq
  have hd := h.descends
  rw [hi, List.map_cons] at hd
  have hpass : i.pass? n = some q := by
    rw [pass?, hi]
    exact List.lookup_cons_self
  obtain ⟨hvalue, hlog⟩ := step_of_flight hpass a
  have hland : (i.land n).inFlight = flights := by
    have hlt := (List.pairwise_cons.mp (List.pairwise_cons.mp hd).2).1
    rw [land, hi, List.filter_cons_of_neg (by simp)]
    exact List.filter_eq_self.mpr fun e he =>
      decide_eq_true (Nat.ne_of_lt (hlt e.1 (List.mem_map_of_mem he)))
  have hanswer : i.seenAnswer (.resume n a) = q.call?.toList.flatMap (·.seenAnswer a) := by
    rw [seenAnswer, hpass]
    rfl
  rw [← hlog, ← hanswer]
  refine reaches_follow hvalue (congrArg (List.map Prod.snd) hland) ?_
  show (i.streamsEnded :: n :: (i.land n).inFlight.map Prod.fst).Pairwise _
  rw [hland]
  exact hd

/-- Some steps lead to where a rehearsal is in the end, with no pass in flight. They log the same,
and show what is seen in the rehearsal after `before`. -/
def Enacts (i : Interleaving) (showsEnds : Bool) (before : List SinkEvent) (log : List LogEvent)
    (r : Rehearsal) : Prop :=
  r.script.showsEnds = showsEnds ∧
    ∃ events, i.Reaches showsEnds log events r.fanout [] ∧ r.events.toList = before ++ events

/-- What is left of a rehearsal after some steps is done by these steps and then the others. -/
theorem Reaches.enacts {before : List SinkEvent} {log' : List LogEvent} {r : Rehearsal}
    (h : i.Reaches showsEnds log events f passes)
    (hk : ∀ j : Interleaving, j.fanout = f → j.Nested passes →
      j.Enacts showsEnds (before ++ events) log' r) :
    i.Enacts showsEnds before (log ++ log') r := by
  obtain ⟨j, hf, hp, htrans⟩ := h.trans
  obtain ⟨hends, events', hreaches, hevents⟩ := hk j hf hp
  exact ⟨hends, events ++ events', htrans hreaches, by rw [hevents, List.append_assoc]⟩

end Interleaving

theorem Script.showsEnds_react (s : Script) (call : SinkCall) :
    (s.react call).2.showsEnds = s.showsEnds := by
  rw [react]
  split <;> rfl

namespace Rehearsal

open Interleaving

variable (r : Rehearsal)

theorem events_witness (call : SinkCall) :
    (r.witness call).events.toList = r.events.toList ++ call.seen r.script.showsEnds := by
  cases call with
  | push channel unit => simp [witness, SinkCall.seen]
  | endOfStream channel =>
    rw [witness, SinkCall.seen]
    split <;> simp

theorem events_witnessAnswer (call : SinkCall) (answer : Answer) :
    (r.witnessAnswer call answer).events.toList = r.events.toList ++ call.seenAnswer answer := by
  cases call <;> cases answer <;> simp [witnessAnswer, SinkCall.seenAnswer]

@[simp] theorem fanout_witness (call : SinkCall) : (r.witness call).fanout = r.fanout := by
  cases call with
  | push channel unit => rfl
  | endOfStream channel =>
    rw [witness]
    split <;> rfl

@[simp] theorem fanout_witnessAnswer (call : SinkCall) (answer : Answer) :
    (r.witnessAnswer call answer).fanout = r.fanout := by
  cases call <;> cases answer <;> rfl

/-- A pass and the scenes around it come to their end by single steps. -/
theorem enacts_run (waiting : List Scene) (cue : Cue) {i : Interleaving} (hf : i.fanout = r.fanout)
    (hn : i.Nested (cue.pass?.toList ++ waiting.map Scene.pass)) :
    i.Enacts r.script.showsEnds (r.events.toList ++ cue.seen r.script.showsEnds)
      (r.run waiting cue).log ((r.run waiting cue).value.2.witnessAction .endStream
        (.streamEnded (r.run waiting cue).value.1)) := by
  -- By the recursion of `run`: a call of the sink opens a scene, whose actions are played before
  -- the pass has its answer.
  fun_induction run r waiting cue generalizing i
  case case1 r waiting pass call hcall seen reaction ih =>
    have hrest := ih (hf.trans (r.fanout_witness call).symm) hn
    simp only [Cue.seen, List.append_nil, seen, events_witness, reaction,
      Script.showsEnds_react, script_witness] at hrest
    simpa [Cue.seen, Outcome.seen, hcall, seen, reaction] using hrest
  case case2 r waiting pass hcall step ih =>
    have hstep := hn.resume r.script.showsEnds .accepted
    rw [hcall, hf] at hstep
    rw [Logged.log_bind]
    refine hstep.enacts fun j hj hp => ?_
    simpa [Cue.seen, Outcome.seen, hcall] using ih hj hp
  case case3 r result =>
    exact ⟨rfl, [], hf ▸ Reaches.refl hn, by simp [Cue.seen, Outcome.seen, witnessAction]⟩
  case case4 r result scene waiting ih =>
    simpa [Cue.seen, Outcome.seen, witnessAction] using ih hf hn
  case case5 r waiting pass call action actions answer hcall ih =>
    have hstep := hn.call r.script.showsEnds action
    rw [hf] at hstep
    rw [Logged.log_bind]
    refine hstep.enacts fun j hj hp => ?_
    simpa [Cue.seen, witnessAction] using ih _ _ hj hp
  case case6 r waiting pass call actions answer hcall ih =>
    have hstep := hn.endStream r.script.showsEnds
    rw [hf] at hstep
    rw [Logged.log_bind]
    refine hstep.enacts fun j hj hp => ?_
    simpa [Cue.seen] using ih _ _ hj hp
  case case7 r waiting pass call answer hcall seen step ih =>
    have hstep := hn.resume r.script.showsEnds answer
    rw [hcall, hf, ← r.fanout_witnessAnswer call answer] at hstep
    rw [Logged.log_bind]
    refine hstep.enacts fun j hj hp => ?_
    simpa [Cue.seen, seen, step, events_witnessAnswer] using ih hj hp

theorem enacts_perform (action : HostAction) {i : Interleaving} (hf : i.fanout = r.fanout)
    (hn : i.Nested []) :
    i.Enacts r.script.showsEnds r.events.toList (r.perform action).log
      ((r.perform action).value.2.witnessAction action (r.perform action).value.1) := by
  cases action with
  | call c =>
    have hstep := hn.call r.script.showsEnds c
    rw [hf] at hstep
    rw [perform, Logged.log_bind]
    refine hstep.enacts fun j hj hp => ⟨rfl, [], ?_, by simp [witnessAction]⟩
    show j.Reaches _ [] [] (r.fanout.perform c).value.2 []
    rw [← hj]
    exact Reaches.refl hp
  | endStream =>
    have hstep := hn.endStream r.script.showsEnds
    rw [hf] at hstep
    rw [perform, Logged.log_bind]
    refine hstep.enacts fun j hj hp => ?_
    have hrun := enacts_run { r with fanout := r.fanout.endStream.value.2 } []
      (.outcome r.fanout.endStream.value.1) hj hp
    simpa [Cue.seen] using hrun

theorem enacts_performAll (actions : List HostAction) {i : Interleaving} (hf : i.fanout = r.fanout)
    (hn : i.Nested []) :
    i.Enacts r.script.showsEnds r.events.toList (r.performAll actions).log
      (r.performAll actions).value := by
  induction actions generalizing r i with
  | nil => exact ⟨rfl, [], hf ▸ Reaches.refl hn, (List.append_nil _).symm⟩
  | cons action actions ih =>
    obtain ⟨hends, events, hstep, hevents⟩ := r.enacts_perform action hf hn
    rw [performAll, Logged.log_bind]
    refine hstep.enacts fun j hj hp => ?_
    rw [← hevents, ← hends]
    exact ih _ hj hp

/-- A rehearsal is a run of single steps from the beginning: it logs the same, shows the same at the
sink, comes to the same fanout, and no pass is in flight when it is over. -/
theorem performAll_run (config : Config) (script : Script) (actions : List HostAction) :
    let start : Rehearsal := { fanout := { config }, script }
    let out := start.performAll actions
    ∃ steps, ((fresh config).trace steps).flatMap Logged.log = out.log ∧
      (fresh config).seen script.showsEnds steps = out.value.events.toList ∧
      ((fresh config).after steps).fanout = out.value.fanout ∧
      ((fresh config).after steps).inFlight = [] := by
  intro start out
  obtain ⟨-, events, ⟨steps, hlog, hevents, hf, hn⟩, hseen⟩ :=
    start.enacts_performAll actions (i := fresh config) rfl ⟨rfl, by simp [fresh]⟩
  exact ⟨steps, hlog, hevents.trans hseen.symm, hf, List.map_eq_nil_iff.mp hn.passes_eq⟩

end Rehearsal

end StreamFanout
