import StreamFanout.Script.Basic

/-!
A fanout over a scripted sink. The host's actions inside a sink call run to completion before the
call is answered, so passes nest: the innermost pass is the one that goes on, and those around it
wait. A rehearsal ends because each step uses up a firing, or else an end of stream that is still
to come, or else an action or a sink call.
-/

namespace StreamFanout

inductive SinkEvent where
  | pushed (channel : Channel) (unit : AccessUnit)
  | refused (channel : Channel) (reason : Refusal)
  | streamEnded (channel : Channel)
  /-- The host acted from inside a call. -/
  | acted (action : HostAction) (result : HostResult)

structure Rehearsal where
  fanout : Fanout := {}
  script : Script := {}
  events : Array SinkEvent := #[]

/-- A sink call that is being served: the pass that waits for it, the host's actions that are left,
and the answer. -/
structure Scene where
  pass : Pass
  call : SinkCall
  actions : List HostAction
  answer : Answer
  calls : pass.call? = some call

/-- What comes next: a pass that has come to a stop or to its end, or the innermost scene goes
on. -/
inductive Cue where
  | outcome (outcome : Outcome)
  | scene (scene : Scene)

def streamEnds (actions : List HostAction) : Nat :=
  actions.countP (· = .endStream)

def Cue.streamEnds : Cue → Nat
  | outcome _ => 0
  | scene s => StreamFanout.streamEnds s.actions

def Scene.weight (s : Scene) : Nat :=
  2 * s.pass.stepsLeft + s.actions.length

def Cue.weight : Cue → Nat
  | outcome o => 2 * o.stepsLeft + 1
  | scene s => s.weight

namespace Rehearsal

def witness (r : Rehearsal) : SinkCall → Rehearsal
  | .push channel unit => { r with events := r.events.push (.pushed channel unit) }
  | .endOfStream channel =>
    if r.script.showsEnds then { r with events := r.events.push (.streamEnded channel) } else r

def witnessAnswer (r : Rehearsal) : SinkCall → Answer → Rehearsal
  | .push channel _, .refused reason =>
    { r with events := r.events.push (.refused channel reason) }
  | _, _ => r

def witnessAction (r : Rehearsal) (action : HostAction) (result : HostResult) : Rehearsal :=
  { r with events := r.events.push (.acted action result) }

@[simp] theorem script_witness (r : Rehearsal) (call : SinkCall) :
    (r.witness call).script = r.script := by
  cases call
  · rfl
  · rw [witness]
    split <;> rfl

@[simp] theorem script_witnessAnswer (r : Rehearsal) (call : SinkCall) (answer : Answer) :
    (r.witnessAnswer call answer).script = r.script := by
  cases call <;> cases answer <;> rfl

@[simp] theorem script_witnessAction (r : Rehearsal) (action : HostAction) (result : HostResult) :
    (r.witnessAction action result).script = r.script := rfl

/-- Three numbers decrease when the first does, or the second and the first stays, or the third and
the others stay. -/
theorem lex_of_lt {a b c a' b' c' : Nat}
    (h : a < a' ∨ a = a' ∧ (b < b' ∨ b = b' ∧ c < c')) :
    Prod.Lex (· < ·) (Prod.Lex (· < ·) (· < ·)) (a, b, c) (a', b', c') := by
  rcases h with h | ⟨rfl, h | ⟨rfl, h⟩⟩
  · exact .left _ _ h
  · exact .right _ (.left _ _ h)
  · exact .right _ (.right _ h)

/-- Runs the passes until the outermost one is over. Nobody else is there, so a pass that needs the
fanout gets at it at once. -/
def run (r : Rehearsal) (waiting : List Scene) :
    Cue → Logged (Except FanoutError Report × Rehearsal)
  | .outcome (.suspended pass) =>
    match h : pass.call? with
    | some call =>
      let seen := r.witness call
      let reaction := seen.script.react call
      run { seen with script := reaction.2 } waiting
        (.scene ⟨pass, call, reaction.1.1, reaction.1.2, h⟩)
    | none =>
      let step := r.fanout.resume pass .accepted
      do
        Logged.emitAll step.log
        run { r with fanout := step.value.2 } waiting (.outcome step.value.1)
  | .outcome (.ended result) =>
    match waiting with
    | [] => pure (result, r)
    | scene :: waiting =>
      run (r.witnessAction .endStream (.streamEnded result)) waiting (.scene scene)
  | .scene ⟨pass, call, .call action :: actions, answer, h⟩ => do
    let (result, fanout) ← r.fanout.perform action
    run ({ r with fanout }.witnessAction (.call action) result) waiting
      (.scene ⟨pass, call, actions, answer, h⟩)
  | .scene ⟨pass, call, .endStream :: actions, answer, h⟩ => do
    let (outcome, fanout) ← r.fanout.endStream
    run { r with fanout } (⟨pass, call, actions, answer, h⟩ :: waiting) (.outcome outcome)
  | .scene ⟨pass, call, [], answer, _⟩ =>
    let seen := r.witnessAnswer call answer
    let step := seen.fanout.resume pass answer
    do
      Logged.emitAll step.log
      run { seen with fanout := step.value.2 } waiting (.outcome step.value.1)
termination_by cue =>
  (Script.firingsLeft r.script.rules,
    sumOf (fun s => streamEnds s.actions) waiting + cue.streamEnds,
    sumOf Scene.weight waiting + cue.weight)
decreasing_by
  all_goals apply lex_of_lt
  · have h := Script.firingsLeft_react (r.witness call).script call
    rw [script_witness] at h ⊢
    rcases h with h | ⟨h, hnil⟩
    · exact .inl h
    · refine .inr ⟨h, .inr ⟨?_, ?_⟩⟩
      · simp [Cue.streamEnds, streamEnds, hnil]
      · simp [Cue.weight, Scene.weight, Outcome.stepsLeft, hnil]
  · refine .inr ⟨rfl, .inr ⟨rfl, ?_⟩⟩
    have h := r.fanout.stepsLeft_resume_lt pass .accepted
    simp only [Cue.weight, Outcome.stepsLeft] at h ⊢
    omega
  · refine .inr ⟨rfl, .inr ⟨?_, ?_⟩⟩
    · simp [Cue.streamEnds, Nat.add_comm]
    · simp only [Cue.weight, sumOf_cons]
      omega
  · refine .inr ⟨rfl, .inr ⟨?_, ?_⟩⟩
    · simp [Cue.streamEnds, streamEnds]
    · simp [Cue.weight, Scene.weight]
  · refine .inr ⟨rfl, .inl ?_⟩
    simp [Cue.streamEnds, streamEnds]
    omega
  · refine .inr ⟨by simp, .inr ⟨by simp [Cue.streamEnds, streamEnds], ?_⟩⟩
    have h := (r.witnessAnswer call answer).fanout.stepsLeft_resume_lt pass answer
    simp only [Cue.weight, Scene.weight, List.length_nil] at h ⊢
    omega

def perform (r : Rehearsal) : HostAction → Logged (HostResult × Rehearsal)
  | .call call => do
    let (result, fanout) ← r.fanout.perform call
    pure (result, { r with fanout })
  | .endStream => do
    let (outcome, fanout) ← r.fanout.endStream
    let (result, r) ← run { r with fanout } [] (.outcome outcome)
    pure (.streamEnded result, r)

/-- Performs actions of the host one after another and notes them among what the sink sees. -/
def performAll (r : Rehearsal) : List HostAction → Logged Rehearsal
  | [] => pure r
  | action :: actions => do
    let (result, r) ← r.perform action
    (r.witnessAction action result).performAll actions

end Rehearsal

end StreamFanout
