import StreamFanout.Proofs.Delivery.Replay

/-!
The operations of a dispatcher under its locks. One lock guards the fanout, another the routes. Each
is taken for one access and given back after it: a pass takes the lock of the fanout to look up a
channel and to count, a call on the sink takes that of the routes to find its queue, and no lock is
held while a send is attempted. A lock that was held while a call waits would stop all others.
-/
namespace StreamFanout

/-- The lock of the fanout, and the lock of the routes, which has many readers or one writer. -/
structure Locks where
  fanout : Bool := false
  readers : Nat := 0
  writer : Bool := false

structure Guarded where
  dispatcher : Dispatcher
  locks : Locks := {}

/-- A computation on a guarded dispatcher. It comes to nothing where it has to wait for a lock. -/
abbrev Access (α : Type) := StateT Guarded Option α

namespace Access

variable {α : Type}

def lockFanout : Access Unit := fun g =>
  if g.locks.fanout then none else some ((), { g with locks.fanout := true })

def unlockFanout : Access Unit :=
  modify fun g => { g with locks.fanout := false }

def lockRead : Access Unit := fun g =>
  if g.locks.writer then none else some ((), { g with locks.readers := g.locks.readers + 1 })

def unlockRead : Access Unit :=
  modify fun g => { g with locks.readers := g.locks.readers - 1 }

def lockWrite : Access Unit := fun g =>
  if g.locks.writer ∨ 0 < g.locks.readers then none
  else some ((), { g with locks.writer := true })

def unlockWrite : Access Unit :=
  modify fun g => { g with locks.writer := false }

/-- One access to the fanout, under its lock. -/
def onFanout (f : Fanout → α × Fanout) : Access α := do
  lockFanout
  let a ← modifyGet fun g =>
    ((f g.dispatcher.fanout).1,
      { g with dispatcher.fanout := (f g.dispatcher.fanout).2 })
  unlockFanout
  pure a

def readRoutes (f : Switchboard → α) : Access α := do
  lockRead
  let g ← get
  unlockRead
  pure (f g.dispatcher.board)

def writeRoutes (f : Switchboard → α × Switchboard) : Access α := do
  lockWrite
  let a ← modifyGet fun g =>
    ((f g.dispatcher.board).1, { g with dispatcher.board := (f g.dispatcher.board).2 })
  unlockWrite
  pure a

def onQueues (f : Switchboard → α × Switchboard) : Access α :=
  modifyGet fun g =>
    ((f g.dispatcher.board).1, { g with dispatcher.board := (f g.dispatcher.board).2 })

def arriveAll : List AccessUnit → Access (Nat × Nat)
  | [] => pure (0, 0)
  | u :: us => do
    let r ← onFanout fun f => (f.arrive u).value
    let (accepted, rejected) ← arriveAll us
    match r with
    | .ok () => pure (accepted + 1, rejected)
    | .error _ => pure (accepted, rejected + 1)

/-- A call of the host is one access to the fanout. The settings are under no lock. -/
def perform : HostCall → Access HostResult
  | .arrive u => do pure (.arrived (← onFanout fun f => (f.arrive u).value))
  | .arriveAll us => do
    let counted ← arriveAll us
    pure (.arrivedAll counted.1 counted.2)
  | .request c => do pure (.requested (← onFanout fun f => (f.request c).value))
  | .requestNamed name => do
    let requested := Channel.ofName? (← get).dispatcher.fanout.config.channelPrefix name
    pure (.requested (← onFanout fun f => (f.request requested).value))
  | .release c => do pure (.released (← onFanout fun f => (f.release c).value))
  | .live => do pure (.live (← onFanout fun f => (f.live, f)))
  | .stats => do pure (.stats (← onFanout fun f => (f.stats, f)))
  | .config => do pure (.config (← get).dispatcher.fanout.config)

/-- Leaves the stop of a pass. To look a channel up and to count the units at the end is one access
each; the answers of the sink need none. -/
def leave (answer : Answer) : Pass → Access Outcome
  | .looking plan served lane gop upcoming round => do
    if ← onFanout fun f => (f.roster.contains lane.channel, f) then
      pure (.suspended (.pushing plan served lane gop.first gop.rest.toList upcoming round))
    else
      pure (.suspended (.next plan round (served ++ [lane.abandon gop.length]) upcoming))
  | .pushing plan served lane _ rest upcoming round =>
    match answer, rest with
    | .accepted, [] => pure (.suspended (.next plan round (served ++ [lane.accept]) upcoming))
    | .accepted, unit :: rest =>
      pure (.suspended (.pushing plan served lane.accept unit rest upcoming round))
    | .refused _, rest =>
      pure (.suspended (.next plan round (served ++ [lane.abandon (1 + rest.length)]) upcoming))
  | .ending plan lanes _ rest =>
    match rest with
    | [] => pure (.suspended (.booking plan lanes))
    | c :: rest => pure (.suspended (.ending plan lanes c rest))
  | .booking plan lanes => do
    pure (.ended (← onFanout fun f => (f.book plan lanes).value))
  | .discarding gops => do
    onFanout fun f => ((), f.discard gops)
    pure (.ended (.error (.noChannels gops.length)))

/-- Takes all groups and the live channels in one access. To plan their distribution needs none;
without groups there is nothing to plan, and nothing to count, but for that too there is an
access. -/
def beginPass : Access Outcome := do
  let (gops, channels) ← onFanout fun f =>
    ((f.grouping.finalize.value, f.live), { f with grouping := {} })
  match (Fanout.distribute gops channels).value with
  | .suspended p => pure (.suspended p)
  | .ended result => do
    onFanout fun f => ((), f.discard [])
    pure (.ended result)

def issue (ticket : Nat) (call : SinkCall) : Access Issue := do
  match ← readRoutes fun b => b.route? call.channel with
  | none => pure (.answered call.unrouted)
  | some queue => do
    let result ← onQueues fun b => b.sendBy queue (·.offer ticket call.event)
    pure (call.issue queue result).value

def reissue (ticket queue : Nat) (call : SinkCall) : Access Issue := do
  let result ← onQueues fun b => b.sendBy queue (·.retry ticket call.event)
  pure (call.issue queue result).value

def attempt (ticket : Nat) (call : SinkCall) : Option Nat → Access Issue
  | none => issue ticket call
  | some queue => reissue ticket queue call

def resume (answer : Answer) : Task → Access TaskProgress
  | .push .. => pure (.finished (.pushed answer))
  | .endOfStream _ => pure (.finished .endSent)
  | .pass p => do
    match ← leave answer p with
    | .suspended next => pure (.waiting none (.pass next))
    | .ended result => pure (.finished (.streamEnded result))

def step (ticket : Nat) (queue : Option Nat) (task : Task) : Access TaskProgress :=
  match task.call? with
  | none => resume .accepted task
  | some call => do
    match ← attempt ticket call queue with
    | .waits queue => pure (.waiting (some queue) task)
    | .answered answer => resume answer task

def proceed (ticket : Nat) : (limit : Nat) → Option Nat → Task → Access TaskProgress
  | 0, queue, task => pure (.waiting queue task)
  | limit + 1, queue, task => do
    match ← step ticket queue task with
    | .waiting none task => proceed ticket limit none task
    | stopped => pure stopped

/-- What is kept of the calls that wait is under no lock. -/
def onCalls (f : Dispatcher → α × Dispatcher) : Access α :=
  modifyGet fun g => ((f g.dispatcher).1, { g with dispatcher := (f g.dispatcher).2 })

def start (task : Task) (limit : Option Nat := none) : Access Started := do
  let ticket ← onCalls fun d => (d.nextTicket, d)
  match ← proceed ticket (limit.getD task.stepsLeft) none task with
  | .finished result => pure (.finished result)
  | .waiting queue task =>
    onCalls fun d => (.pending ticket,
      { d with waiting := d.waiting ++ [⟨ticket, queue, task⟩], nextTicket := ticket + 1 })

def replace (ticket : Nat) (new : Option WaitingCall) (result : α) : Access α :=
  onCalls fun d => (result, { d with waiting := WaitingCall.replace ticket new d.waiting })

def poll (ticket : Nat) (limit : Option Nat) : Access (Option CallResult) := do
  match ← onCalls fun d => (d.waiting.find? (·.ticket = ticket), d) with
  | none => pure none
  | some w =>
    match ← proceed ticket (limit.getD w.task.stepsLeft) w.queue w.task with
    | .finished result => replace ticket none (some result)
    | .waiting queue task => replace ticket (some ⟨ticket, queue, task⟩) none

def endStream (limit : Option Nat) : Access Started := do
  match ← beginPass with
  | .ended result => pure (.finished (.streamEnded result))
  | .suspended p => start (.pass p) limit

def operate : Operation → Access OperationResult
  | .call call => do pure (.called (← perform call))
  | .endStream limit => do pure (.started (← endStream limit))
  | .push c u => do pure (.started (← start (.push c u)))
  | .sendEnd c => do pure (.started (← start (.endOfStream c)))
  | .attach c => do pure (.attached (← writeRoutes fun b => b.attach c))
  | .detach c => do pure (.detached (← writeRoutes fun b => b.detach c))
  | .receive queue => do pure (.read (← onQueues fun b => b.receive queue))
  | .close queue => do
    onQueues fun b => ((), b.modify queue Queue.close)
    pure .done
  | .drop queue => do
    onQueues fun b => ((), b.modify queue Queue.drop)
    pure .done
  | .cancel ticket => do pure (.cancelled (← onCalls (·.cancel ticket)))
  | .poll ticket limit => do pure (.polled (← poll ticket limit))

def operateAll : List Operation → Access (List OperationResult)
  | [] => pure []
  | op :: ops => do
    let result ← operate op
    let results ← operateAll ops
    pure (result :: results)

/-- From a dispatcher whose locks are free a computation comes to the same as one without locks,
and gives all locks back. -/
def Agrees (d : Dispatcher) (x : Access α) (r : α × Dispatcher) : Prop :=
  x ⟨d, {}⟩ = some (r.1, ⟨r.2, {}⟩)

section

variable {β : Type} {d : Dispatcher}

theorem agrees_pure (d : Dispatcher) (a : α) : Agrees d (pure a) (a, d) := rfl

theorem Agrees.bind {x : Access α} {k : α → Access β} {r : α × Dispatcher} {s : β × Dispatcher}
    (h : Agrees d x r) (hk : Agrees r.2 (k r.1) s) : Agrees d (x >>= k) s := by
  have hx : x ⟨d, {}⟩ = some (r.1, ⟨r.2, {}⟩) := h
  show (x ⟨d, {}⟩).bind (fun a => k a.1 a.2) = _
  rw [hx]
  exact hk

theorem Agrees.map {x : Access α} {r : α × Dispatcher} (h : Agrees d x r) (f : α → β) :
    Agrees d (do pure (f (← x))) (f r.1, r.2) :=
  h.bind (agrees_pure _ _)

theorem agrees_onFanout (d : Dispatcher) (f : Fanout → α × Fanout) :
    Agrees d (onFanout f) ((f d.fanout).1, { d with fanout := (f d.fanout).2 }) := rfl

theorem agrees_readRoutes (d : Dispatcher) (f : Switchboard → α) :
    Agrees d (readRoutes f) (f d.board, d) := rfl

theorem agrees_writeRoutes (d : Dispatcher) (f : Switchboard → α × Switchboard) :
    Agrees d (writeRoutes f) ((f d.board).1, { d with board := (f d.board).2 }) := rfl

theorem agrees_onQueues (d : Dispatcher) (f : Switchboard → α × Switchboard) :
    Agrees d (onQueues f) ((f d.board).1, { d with board := (f d.board).2 }) := rfl

theorem agrees_onCalls (d : Dispatcher) (f : Dispatcher → α × Dispatcher) :
    Agrees d (onCalls f) (f d) := rfl

theorem agrees_arriveAll (d : Dispatcher) (us : List AccessUnit) :
    Agrees d (arriveAll us)
      ((d.fanout.arriveAll us).value.1, { d with fanout := (d.fanout.arriveAll us).value.2 }) := by
  induction us generalizing d with
  | nil => exact agrees_pure d (0, 0)
  | cons u us ih =>
    have hrest := ih { d with fanout := (d.fanout.arrive u).value.2 }
    refine (agrees_onFanout d fun f => (f.arrive u).value).bind (hrest.bind ?_)
    simp only [Fanout.arriveAll, Logged.value_bind]
    cases (d.fanout.arrive u).value.1 <;> rfl

theorem agrees_perform (d : Dispatcher) (call : HostCall) :
    Agrees d (perform call) (d.perform call).value := by
  cases call with
  | arrive u => exact (agrees_onFanout d fun f => (f.arrive u).value).map HostResult.arrived
  | arriveAll us =>
    exact (agrees_arriveAll d us).map fun counted => HostResult.arrivedAll counted.1 counted.2
  | request c => exact (agrees_onFanout d fun f => (f.request c).value).map HostResult.requested
  | requestNamed name =>
    have hvalue : (d.fanout.requestNamed name).value = (d.fanout.request
        (Channel.ofName? d.fanout.config.channelPrefix name)).value := by
      rw [Fanout.requestNamed]
      split <;> rfl
    have hagrees := (agrees_onFanout d fun f => (f.request
      (Channel.ofName? d.fanout.config.channelPrefix name)).value).map HostResult.requested
    rw [← hvalue] at hagrees
    exact hagrees
  | release c => exact (agrees_onFanout d fun f => (f.release c).value).map HostResult.released
  | live => exact (agrees_onFanout d fun f => (f.live, f)).map HostResult.live
  | stats => exact (agrees_onFanout d fun f => (f.stats, f)).map HostResult.stats
  | config => rfl

/-- A pass leaves its stop in one access to the fanout at most. -/
theorem agrees_leave (d : Dispatcher) (answer : Answer) (p : Pass) :
    Agrees d (leave answer p) ((d.fanout.resume p answer).value.1,
      { d with fanout := (d.fanout.resume p answer).value.2 }) := by
  cases p with
  | looking plan served lane gop upcoming round =>
    refine (agrees_onFanout d fun f => (f.roster.contains lane.channel, f)).bind ?_
    rw [Fanout.resume, Pass.resume]
    dsimp only
    cases d.fanout.roster.contains lane.channel with
    | true => exact agrees_pure d _
    | false => exact agrees_pure d _
  | pushing plan served lane unit rest upcoming round =>
    cases answer with
    | accepted =>
      cases rest with
      | nil => exact agrees_pure d _
      | cons unit rest => exact agrees_pure d _
    | refused reason => exact agrees_pure d _
  | ending plan lanes c rest =>
    cases rest with
    | nil => exact agrees_pure d _
    | cons c rest => exact agrees_pure d _
  | booking plan lanes =>
    exact (agrees_onFanout d fun f => (f.book plan lanes).value).map Outcome.ended
  | discarding gops =>
    exact (agrees_onFanout d fun f => ((), f.discard gops)).bind (agrees_pure _ _)

theorem agrees_beginPass (d : Dispatcher) :
    Agrees d beginPass (d.fanout.endStream.value.1,
      { d with fanout := d.fanout.endStream.value.2 }) := by
  refine (agrees_onFanout d fun f =>
    ((f.grouping.finalize.value, f.live), { f with grouping := {} })).bind ?_
  show Agrees _ _ ((Fanout.distribute d.fanout.grouping.finalize.value d.fanout.live).value, _)
  dsimp only
  generalize (Fanout.distribute _ _).value = outcome
  cases outcome with
  | suspended p => exact agrees_pure _ _
  | ended result => exact (agrees_onFanout _ fun f => ((), f.discard [])).bind (agrees_pure _ _)

theorem agrees_issue (d : Dispatcher) (ticket : Nat) (call : SinkCall) :
    Agrees d (issue ticket call) ((d.board.issue ticket call).value.1,
      { d with board := (d.board.issue ticket call).value.2 }) := by
  refine (agrees_readRoutes d fun b => b.route? call.channel).bind ?_
  rw [Switchboard.issue]
  dsimp only
  cases d.board.route? call.channel with
  | none => exact agrees_pure d _
  | some k =>
    exact (agrees_onQueues d fun b => b.sendBy k (·.offer ticket call.event)).bind
      (agrees_pure _ _)

theorem agrees_reissue (d : Dispatcher) (ticket k : Nat) (call : SinkCall) :
    Agrees d (reissue ticket k call) ((d.board.reissue ticket k call).value.1,
      { d with board := (d.board.reissue ticket k call).value.2 }) :=
  (agrees_onQueues d fun b => b.sendBy k (·.retry ticket call.event)).bind (agrees_pure _ _)

theorem agrees_attempt (d : Dispatcher) (ticket : Nat) (call : SinkCall) (queue : Option Nat) :
    Agrees d (attempt ticket call queue) ((d.attempt ticket call queue).value.1,
      { d with board := (d.attempt ticket call queue).value.2 }) := by
  cases queue with
  | none => exact agrees_issue d ticket call
  | some k => exact agrees_reissue d ticket k call

theorem agrees_resume (d : Dispatcher) (answer : Answer) (task : Task) :
    Agrees d (resume answer task) (d.resume task answer).value := by
  cases task with
  | push | endOfStream => exact agrees_pure d _
  | pass p =>
    refine (agrees_leave d answer p).bind ?_
    rw [Dispatcher.resume, Logged.value_bind]
    generalize (d.fanout.resume p answer).value = r
    obtain ⟨outcome, fanout⟩ := r
    cases outcome with
    | suspended next => exact agrees_pure { d with fanout } _
    | ended result => exact agrees_pure { d with fanout } _

theorem agrees_step (d : Dispatcher) (ticket : Nat) (queue : Option Nat) (task : Task) :
    Agrees d (step ticket queue task) (d.step ticket queue task).value := by
  rw [step, Dispatcher.step]
  cases task.call? with
  | none => exact agrees_resume d .accepted task
  | some call =>
    refine (agrees_attempt d ticket call queue).bind ?_
    rw [Logged.value_bind]
    generalize (d.attempt ticket call queue).value = r
    obtain ⟨issue, board⟩ := r
    cases issue with
    | waits k => exact agrees_pure { d with board } _
    | answered answer => exact agrees_resume { d with board } answer task

theorem agrees_proceed (d : Dispatcher) (ticket limit : Nat) (queue : Option Nat) (task : Task) :
    Agrees d (proceed ticket limit queue task) (d.proceed ticket limit queue task).value := by
  induction limit generalizing d queue task with
  | zero => exact agrees_pure d _
  | succ limit ih =>
    refine (agrees_step d ticket queue task).bind ?_
    rw [Dispatcher.proceed, Logged.value_bind]
    generalize (d.step ticket queue task).value = r
    obtain ⟨progress, d'⟩ := r
    cases progress with
    | finished result => exact agrees_pure d' _
    | waiting queue task =>
      cases queue with
      | none => exact ih d' none task
      | some k => exact agrees_pure d' _

theorem agrees_start (d : Dispatcher) (task : Task) (limit : Option Nat) :
    Agrees d (start task limit) (d.start task limit).value := by
  refine (agrees_onCalls d fun d => (d.nextTicket, d)).bind ((agrees_proceed _ _ _ _ _).bind ?_)
  have henters := d.enters_start task limit
  generalize (Dispatcher.proceed _ _ _ _ _).value = r at henters ⊢
  generalize (d.start task limit).value = s at henters ⊢
  cases henters with
  | finished result e => exact agrees_pure e _
  | waiting queue task' e hwaiting =>
    rw [← hwaiting]
    exact agrees_onCalls e _

theorem agrees_poll (d : Dispatcher) (ticket : Nat) (limit : Option Nat) :
    Agrees d (poll ticket limit) (d.poll ticket limit).value := by
  refine (agrees_onCalls d fun d => (d.waiting.find? (·.ticket = ticket), d)).bind ?_
  cases hw : d.waiting.find? (·.ticket = ticket) with
  | none =>
    rw [Dispatcher.poll, hw]
    exact agrees_pure d _
  | some w =>
    refine (agrees_proceed _ _ _ _ _).bind ?_
    have hpolls := Dispatcher.polls_poll hw limit
    generalize (Dispatcher.proceed _ _ _ _ _).value = r at hpolls ⊢
    generalize (d.poll ticket limit).value = s at hpolls ⊢
    cases hpolls with
    | finished result e hwaiting =>
      rw [← hwaiting]
      exact agrees_onCalls e _
    | waiting queue task e hwaiting =>
      rw [← hwaiting]
      exact agrees_onCalls e _

theorem agrees_endStream (d : Dispatcher) (limit : Option Nat) :
    Agrees d (endStream limit) (d.endStream limit).value := by
  refine (agrees_beginPass d).bind ?_
  simp only [Dispatcher.endStream, Logged.value_bind]
  generalize d.fanout.endStream.value = r
  obtain ⟨outcome, fanout⟩ := r
  cases outcome with
  | ended result => exact agrees_pure { d with fanout } _
  | suspended p => exact agrees_start { d with fanout } (.pass p) limit

/-- Under its locks a dispatcher does what it does without them. -/
theorem agrees_operate (d : Dispatcher) (op : Operation) :
    Agrees d (operate op) (d.operate op).value := by
  cases op with
  | call c => exact (agrees_perform d c).map OperationResult.called
  | endStream limit => exact (agrees_endStream d limit).map OperationResult.started
  | push c u => exact (agrees_start d (.push c u) none).map OperationResult.started
  | sendEnd c => exact (agrees_start d (.endOfStream c) none).map OperationResult.started
  | attach c => exact (agrees_writeRoutes d fun b => b.attach c).map OperationResult.attached
  | detach c => exact (agrees_writeRoutes d fun b => b.detach c).map OperationResult.detached
  | receive k => exact (agrees_onQueues d fun b => b.receive k).map OperationResult.read
  | close k =>
    exact (agrees_onQueues d fun b => ((), b.modify k Queue.close)).bind (agrees_pure _ _)
  | drop k => exact (agrees_onQueues d fun b => ((), b.modify k Queue.drop)).bind (agrees_pure _ _)
  | cancel ticket => exact (agrees_onCalls d (·.cancel ticket)).map OperationResult.cancelled
  | poll ticket limit => exact (agrees_poll d ticket limit).map OperationResult.polled

theorem agrees_operateAll (d : Dispatcher) (ops : List Operation) :
    Agrees d (operateAll ops) (d.operateAll ops).value := by
  induction ops generalizing d with
  | nil => exact agrees_pure d []
  | cons op ops ih => exact (agrees_operate d op).bind ((ih _).bind (agrees_pure _ _))

end

end Access

end StreamFanout
