import StreamFanout.Delivery.Dispatcher

/-!
Everything that can be done to a fanout over consumer queues: calls of the host, calls of the
sink, what the consumers do, and the polling or giving up of calls that wait. A run is a list of
such operations in any order. Between any two steps of a pass there may be others, since the end of
a stream and a poll may be confined to a number of steps.
-/

namespace StreamFanout

/-- One operation on a dispatcher. Queues are known by their numbers, waiting calls by their
tickets. -/
inductive Operation where
  | call (call : HostCall)
  | endStream (limit : Option Nat := none)
  | push (channel : Channel) (unit : AccessUnit)
  | sendEnd (channel : Channel)
  | attach (channel : Channel)
  | detach (channel : Channel)
  | receive (queue : Nat)
  | close (queue : Nat)
  | drop (queue : Nat)
  | cancel (ticket : Nat)
  | poll (ticket : Nat) (limit : Option Nat := none)
  deriving DecidableEq

inductive OperationResult where
  | called (result : HostResult)
  | started (started : Started)
  | attached (queue : Nat)
  | detached (wasAttached : Bool)
  | read (reading : Reading)
  | done
  | cancelled (wasWaiting : Bool)
  | polled (result : Option CallResult)

namespace Dispatcher

def operate (d : Dispatcher) : Operation → Logged (OperationResult × Dispatcher)
  | .call call => do
    let (result, d) ← d.perform call
    pure (.called result, d)
  | .endStream limit => do
    let (started, d) ← d.endStream limit
    pure (.started started, d)
  | .push c u => do
    let (started, d) ← d.start (.push c u)
    pure (.started started, d)
  | .sendEnd c => do
    let (started, d) ← d.start (.endOfStream c)
    pure (.started started, d)
  | .attach c =>
    let (queue, d) := d.attach c
    pure (.attached queue, d)
  | .detach c =>
    let (wasAttached, d) := d.detach c
    pure (.detached wasAttached, d)
  | .receive queue =>
    let (reading, d) := d.receive queue
    pure (.read reading, d)
  | .close queue => pure (.done, d.close queue)
  | .drop queue => pure (.done, d.drop queue)
  | .cancel ticket =>
    let (wasWaiting, d) := d.cancel ticket
    pure (.cancelled wasWaiting, d)
  | .poll ticket limit => do
    let (result, d) ← d.poll ticket limit
    pure (.polled result, d)

def operateAll (d : Dispatcher) : List Operation → Logged (List OperationResult × Dispatcher)
  | [] => pure ([], d)
  | op :: ops => do
    let (result, d) ← d.operate op
    let (results, d) ← d.operateAll ops
    pure (result :: results, d)

end Dispatcher

end StreamFanout
