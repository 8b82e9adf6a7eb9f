import StreamFanout.Delivery.Fifo
import StreamFanout.Stream.AccessUnit

/-!
The bounded queue between a fanout and one consumer. A send that finds a slot is over at once;
otherwise it waits in a line, first come, first served. An event that is received frees its slot
for the head of the line, and no later send can take it; the event of that send enters the queue
when its sender goes on. Once the consumer has closed or dropped its end, every send fails,
also those that wait.
-/

namespace StreamFanout

inductive ConsumerEvent where
  | unit (unit : AccessUnit)
  | endOfStream
  deriving DecidableEq

inductive ConsumerEnd where
  /-- Takes events. -/
  | listening
  /-- Refuses new events; those queued can still be received. -/
  | closed
  /-- Is gone, and what was queued with it. -/
  | dropped
  deriving DecidableEq, Repr

inductive SendResult where
  | sent
  | refused
  | waiting
  deriving DecidableEq, Repr

inductive Reading where
  | event (event : ConsumerEvent)
  | empty
  /-- Nothing is queued, and nothing can be any more. -/
  | disconnected
  | dropped
  deriving DecidableEq

/-- A bounded queue. Senders are known by tickets. -/
structure Queue where
  capacity : Nat
  events : Fifo ConsumerEvent := {}
  /-- Senders that wait for a slot, in the order in which they began to wait. -/
  line : List Nat := []
  /-- Senders for which a slot is reserved and which have not gone on yet. -/
  granted : List Nat := []
  consumer : ConsumerEnd := .listening

namespace Queue

def ofCapacity (capacity : Nat) : Queue where
  capacity

def free (q : Queue) : Nat :=
  q.capacity - q.events.size - q.granted.length

def hasSenders (q : Queue) : Bool :=
  !(q.line.isEmpty && q.granted.isEmpty)

def append (q : Queue) (e : ConsumerEvent) : Queue :=
  { q with events := q.events.push e }

/-- Reserves a slot that has become free for the head of the line. -/
def grant (q : Queue) : Queue :=
  match q.line with
  | [] => q
  | ticket :: line => { q with line, granted := q.granted ++ [ticket] }

def offer (q : Queue) (ticket : Nat) (e : ConsumerEvent) : SendResult × Queue :=
  if q.consumer ≠ .listening then
    (.refused, q)
  else if 0 < q.free then
    (.sent, q.append e)
  else
    (.waiting, { q with line := q.line ++ [ticket] })

def retry (q : Queue) (ticket : Nat) (e : ConsumerEvent) : SendResult × Queue :=
  if q.consumer ≠ .listening then
    (.refused, { q with line := q.line.erase ticket, granted := q.granted.erase ticket })
  else if ticket ∈ q.granted then
    (.sent, { q with granted := q.granted.erase ticket }.append e)
  else
    (.waiting, q)

/-- A send that has waited is given up. A slot that was reserved for it passes to the next in
line. -/
def forget (q : Queue) (ticket : Nat) : Queue :=
  if ticket ∈ q.granted then
    { q with granted := q.granted.erase ticket }.grant
  else
    { q with line := q.line.erase ticket }

/-- Receives without waiting. `isAttached` tells whether new senders can still find the queue. -/
def receive (q : Queue) (isAttached : Bool) : Reading × Queue :=
  match q.consumer, q.events.pop? with
  | .dropped, _ => (.dropped, q)
  | _, some (e, events) => (.event e, { q with events }.grant)
  | .closed, none => (.disconnected, q)
  | .listening, none => (if isAttached || q.hasSenders then .empty else .disconnected, q)

def close (q : Queue) : Queue :=
  match q.consumer with
  | .listening => { q with consumer := .closed }
  | _ => q

def drop (q : Queue) : Queue :=
  { q with consumer := .dropped, events := {} }

end Queue

def SendResult.added : SendResult → Nat
  | sent => 1
  | _ => 0

namespace Queue

@[simp] theorem events_grant (q : Queue) : q.grant.events = q.events := by
  rw [grant]
  split <;> rfl

theorem size_events_offer (q : Queue) (ticket : Nat) (e : ConsumerEvent) :
    (q.offer ticket e).2.events.size = q.events.size + (q.offer ticket e).1.added := by
  unfold offer
  split
  · rfl
  · split
    · rfl
    · rfl

theorem size_events_retry (q : Queue) (ticket : Nat) (e : ConsumerEvent) :
    (q.retry ticket e).2.events.size = q.events.size + (q.retry ticket e).1.added := by
  unfold retry
  split
  · rfl
  · split
    · rfl
    · rfl

theorem size_events_receive {q : Queue} {isAttached : Bool} {e : ConsumerEvent}
    (h : (q.receive isAttached).1 = .event e) :
    (q.receive isAttached).2.events.size + 1 = q.events.size := by
  unfold receive at h ⊢
  split at h
  · simp at h
  · next e' events he _ =>
    rw [events_grant, ← Fifo.length_toList q.events, Fifo.toList_of_pop? he]
    simp
  · simp at h
  · split at h <;> simp at h

end Queue

end StreamFanout
