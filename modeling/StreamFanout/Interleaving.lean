import StreamFanout.Fanout

/-!
Runs of a fanout under any host and any sink. Passes that wait are in flight; the host's calls,
further ends of stream, the going on of any of the passes and the dropping of a pass follow each
other in any order. Whenever a pass has looked at the fanout or called the sink it is the turn of
anyone again: the end of a stream, every look at a channel, every call and the last count are steps
of their own. Calls that a sink makes from inside a push are steps between the push and its answer,
so nested passes and overlapping ones are runs alike.
-/

namespace StreamFanout

/-- A fanout and the passes that wait. Passes are numbered in the order in which
their streams ended. -/
structure Interleaving where
  fanout : Fanout := {}
  inFlight : List (Nat × Pass) := []
  streamsEnded : Nat := 0

inductive Step where
  | call (call : HostCall)
  | endStream
  /-- A pass leaves its stop: the sink answers its call, or it gets at the fanout and no answer is
  looked at. -/
  | resume (pass : Nat) (answer : Answer := .accepted)
  /-- A pass that waits is dropped. -/
  | abandon (pass : Nat)
  deriving DecidableEq

inductive StepResult where
  | called (result : HostResult)
  /-- The pass waits: for the sink, which it calls, or for the fanout. -/
  | waiting (pass : Nat) (call : Option SinkCall)
  | ended (pass : Nat) (result : Except FanoutError Report)
  | abandoned (pass : Nat)
  /-- There is no such pass in flight. -/
  | void
  deriving DecidableEq

namespace Interleaving

def land (i : Interleaving) (pass : Nat) : Interleaving :=
  { i with inFlight := i.inFlight.filter (·.1 ≠ pass) }

def follow (i : Interleaving) (pass : Nat) : Outcome → StepResult × Interleaving
  | .suspended p =>
    (.waiting pass p.call?, { i with inFlight := (pass, p) :: (i.land pass).inFlight })
  | .ended result => (.ended pass result, i.land pass)

def step (i : Interleaving) : Step → Logged (StepResult × Interleaving)
  | .call call => do
    let (result, fanout) ← i.fanout.perform call
    pure (.called result, { i with fanout })
  | .endStream => do
    let (outcome, fanout) ← i.fanout.endStream
    pure ({ i with fanout, streamsEnded := i.streamsEnded + 1 }.follow i.streamsEnded outcome)
  | .resume pass answer =>
    match i.inFlight.lookup pass with
    | some p => do
      let (outcome, fanout) ← i.fanout.resume p answer
      pure ({ i with fanout }.follow pass outcome)
    | none => pure (.void, i)
  | .abandon pass =>
    match i.inFlight.lookup pass with
    | some _ => pure (.abandoned pass, i.land pass)
    | none => pure (.void, i)

/-- What each step of a run shows and logs. -/
def trace (i : Interleaving) : List Step → List (Logged StepResult)
  | [] => []
  | s :: steps =>
    let taken := i.step s
    ⟨taken.value.1, taken.log⟩ :: trace taken.value.2 steps

def after (i : Interleaving) : List Step → Interleaving
  | [] => i
  | s :: steps => after (i.step s).value.2 steps

theorem after_append (i : Interleaving) (xs ys : List Step) :
    i.after (xs ++ ys) = (i.after xs).after ys := by
  induction xs generalizing i with
  | nil => rfl
  | cons s xs ih => exact ih (i.step s).value.2

theorem trace_append (i : Interleaving) (xs ys : List Step) :
    i.trace (xs ++ ys) = i.trace xs ++ (i.after xs).trace ys := by
  induction xs generalizing i with
  | nil => rfl
  | cons s xs ih => exact congrArg (_ :: ·) (ih (i.step s).value.2)

end Interleaving

end StreamFanout
