import StreamFanout.Delivery.Switchboard
import StreamFanout.Fanout

/-!
A fanout over consumer queues. A task is a call on the sink or a pass; it goes on step by step, and
a step is one look at the fanout, or one call on the sink: a first attempt, which looks up the
queue, or a further one on a queue that was full. A task may be left alone after any of its steps,
to be taken on later, and it cannot go on while a queue is full. A call that is not over is known by
a ticket. Such calls are polled in any order, each for as many steps as one likes, and may be given
up. Everything else is over at once, so the stream, the channels and the consumers are never held up
by a call that waits.
-/

namespace StreamFanout

inductive Task where
  | push (channel : Channel) (unit : AccessUnit)
  | endOfStream (channel : Channel)
  | pass (pass : Pass)
  deriving DecidableEq

def Task.call? : Task → Option SinkCall
  | push channel unit => some (.push channel unit)
  | endOfStream channel => some (.endOfStream channel)
  | pass p => p.call?

def Task.stepsLeft : Task → Nat
  | pass p => p.stepsLeft
  | _ => 1

inductive CallResult where
  | pushed (answer : Answer)
  | endSent
  | streamEnded (result : Except FanoutError Report)
  deriving DecidableEq

inductive TaskProgress where
  | waiting (queue : Option Nat) (task : Task)
  | finished (result : CallResult)

def TaskProgress.stepsLeft : TaskProgress → Nat
  | waiting _ task => task.stepsLeft
  | finished _ => 0

/-- A call that is not over, with the queue that it waits on, if there is one. -/
structure WaitingCall where
  ticket : Nat
  queue : Option Nat
  task : Task
  deriving DecidableEq

/-- Puts another call, or none, in the place of the first with a given ticket. -/
def WaitingCall.replace (ticket : Nat) (new : Option WaitingCall) :
    List WaitingCall → List WaitingCall
  | [] => []
  | w :: ws => if w.ticket = ticket then new.toList ++ ws else w :: replace ticket new ws

/-- A fanout, its consumers' queues, and the calls that are not over, in the order of their
tickets. -/
structure Dispatcher where
  fanout : Fanout
  board : Switchboard
  waiting : List WaitingCall := []
  nextTicket : Nat := 0

/-- What an operation gives back: its result, or the ticket of a call that is not over. -/
inductive Started where
  | finished (result : CallResult)
  | pending (ticket : Nat)

abbrev Completion := Nat × CallResult

namespace Dispatcher

/-- Takes a task on from where it stands, with the answer to its sink call if it stands at one. -/
def resume (d : Dispatcher) (task : Task) (answer : Answer) : Logged (TaskProgress × Dispatcher) :=
  match task with
  | .push .. => pure (.finished (.pushed answer), d)
  | .endOfStream _ => pure (.finished .endSent, d)
  | .pass pass => do
    match ← d.fanout.resume pass answer with
    | (.suspended next, fanout) => pure (.waiting none (.pass next), { d with fanout })
    | (.ended result, fanout) => pure (.finished (.streamEnded result), { d with fanout })

/-- One attempt at a sink call: the first one looks up the queue of the channel, and the others keep
to it. -/
def attempt (d : Dispatcher) (ticket : Nat) (call : SinkCall) :
    Option Nat → Logged (Issue × Switchboard)
  | none => d.board.issue ticket call
  | some queue => d.board.reissue ticket queue call

def step (d : Dispatcher) (ticket : Nat) (queue : Option Nat) (task : Task) :
    Logged (TaskProgress × Dispatcher) :=
  match task.call? with
  | none => d.resume task .accepted
  | some call => do
    match ← d.attempt ticket call queue with
    | (.waits queue, board) => pure (.waiting (some queue) task, { d with board })
    | (.answered answer, board) => resume { d with board } task answer

/-- Takes a task on for `limit` steps, or fewer when it has to wait on a queue or is over before. -/
def proceed (d : Dispatcher) (ticket : Nat) :
    (limit : Nat) → Option Nat → Task → Logged (TaskProgress × Dispatcher)
  | 0, queue, task => pure (.waiting queue task, d)
  | limit + 1, queue, task => do
    match ← d.step ticket queue task with
    | (.waiting none task, d) => d.proceed ticket limit none task
    | stopped => pure stopped

/-- Starts a task, for as many steps as it can go or for `limit` steps at most. It gets a ticket
only if it is not over then. -/
def start (d : Dispatcher) (task : Task) (limit : Option Nat := none) :
    Logged (Started × Dispatcher) := do
  let ticket := d.nextTicket
  match ← d.proceed ticket (limit.getD task.stepsLeft) none task with
  | (.finished result, d) => pure (.finished result, d)
  | (.waiting queue task, next) =>
    let waiting := d.waiting ++ [⟨ticket, queue, task⟩]
    pure (.pending ticket, { next with waiting, nextTicket := ticket + 1 })

/-- Goes on with a waiting call, for as many steps as it can go or for `limit` steps at most, and
tells its result if it is over. -/
def poll (d : Dispatcher) (ticket : Nat) (limit : Option Nat := none) :
    Logged (Option CallResult × Dispatcher) :=
  match d.waiting.find? (·.ticket = ticket) with
  | none => pure (none, d)
  | some w => do
    match ← d.proceed ticket (limit.getD w.task.stepsLeft) w.queue w.task with
    | (.finished result, next) =>
      pure (some result, { next with waiting := WaitingCall.replace ticket none d.waiting })
    | (.waiting queue task, next) =>
      let new := some ⟨ticket, queue, task⟩
      pure (none, { next with waiting := WaitingCall.replace ticket new d.waiting })

def pollEach (d : Dispatcher) : List Nat → Logged (List Completion × Dispatcher)
  | [] => pure ([], d)
  | ticket :: tickets => do
    let (result, d) ← d.poll ticket
    let (completions, d) ← d.pollEach tickets
    pure ((result.map (ticket, ·)).toList ++ completions, d)

def round (d : Dispatcher) : Logged (List Completion × Dispatcher) :=
  d.pollEach (d.waiting.map (·.ticket))

/-- Polls all waiting calls in rounds, until a round leaves as many as it found. -/
def settle (d : Dispatcher) : Logged (List Completion × Dispatcher) :=
  let step := d.round
  if step.value.2.waiting.length < d.waiting.length then do
    Logged.emitAll step.log
    let (completions, d) ← settle step.value.2
    pure (step.value.1 ++ completions, d)
  else
    step
termination_by d.waiting.length

def leave (d : Dispatcher) (w : WaitingCall) : Switchboard :=
  match w.queue with
  | none => d.board
  | some queue => d.board.modify queue (·.forget w.ticket)

def cancel (d : Dispatcher) (ticket : Nat) : Bool × Dispatcher :=
  match d.waiting.find? (·.ticket = ticket) with
  | none => (false, d)
  | some w =>
    (true, { d with
      board := d.leave w
      waiting := WaitingCall.replace ticket none d.waiting })

/-- Ends the stream and takes its pass on, for as many steps as it can go or for `limit` steps at
most. -/
def endStream (d : Dispatcher) (limit : Option Nat := none) : Logged (Started × Dispatcher) := do
  match ← d.fanout.endStream with
  | (.ended result, fanout) => pure (.finished (.streamEnded result), { d with fanout })
  | (.suspended pass, fanout) => start { d with fanout } (.pass pass) limit

def attach (d : Dispatcher) (c : Channel) : Nat × Dispatcher :=
  let attached := d.board.attach c
  (attached.1, { d with board := attached.2 })

def detach (d : Dispatcher) (c : Channel) : Bool × Dispatcher :=
  let detached := d.board.detach c
  (detached.1, { d with board := detached.2 })

def receive (d : Dispatcher) (queue : Nat) : Reading × Dispatcher :=
  let received := d.board.receive queue
  (received.1, { d with board := received.2 })

def close (d : Dispatcher) (queue : Nat) : Dispatcher :=
  { d with board := d.board.modify queue Queue.close }

def drop (d : Dispatcher) (queue : Nat) : Dispatcher :=
  { d with board := d.board.modify queue Queue.drop }

def perform (d : Dispatcher) (call : HostCall) : Logged (HostResult × Dispatcher) := do
  let (result, fanout) ← d.fanout.perform call
  pure (result, { d with fanout })

end Dispatcher

end StreamFanout
