import StreamFanout.Delivery.Queue
import StreamFanout.Distribution.Pass

/-!
Queues of the consumers and the routes to them. A call of the sink looks up the queue of its
channel once, when it is made, and keeps to it: a route that is taken away or replaced afterwards
does not concern it. Ends of stream travel as events of the queue, so a queue outlives a stream.
-/

namespace StreamFanout

/-- The queues made so far, and for each attached channel the queue that it leads to. -/
structure Switchboard where
  /-- Depth of each queue. -/
  capacity : Nat
  queues : Array Queue := #[]
  routes : List (Channel × Nat) := []

inductive Issue where
  | answered (answer : Answer)
  | waits (queue : Nat)
  deriving DecidableEq

def Issue.toCome : Issue → Nat
  | answered _ => 0
  | waits _ => 1

namespace SinkCall

def event : SinkCall → ConsumerEvent
  | push _ unit => .unit unit
  | endOfStream _ => .endOfStream

def channel : SinkCall → Channel
  | push channel _ => channel
  | endOfStream channel => channel

def unrouted : SinkCall → Answer
  | push channel _ => .refused (.channelNotFound channel)
  | endOfStream _ => .accepted

/-- The answer when the consumer takes no more events. -/
def consumerGone : SinkCall → Logged Answer
  | push channel _ => pure (.refused (.channelClosed channel))
  | endOfStream channel => do
    Logged.emit (.consumerGone channel)
    pure .accepted

def issue (call : SinkCall) (queue : Nat) : SendResult → Logged Issue
  | .sent => pure (.answered .accepted)
  | .refused => Issue.answered <$> call.consumerGone
  | .waiting => pure (.waits queue)

end SinkCall

namespace Switchboard

/-- A switchboard without queues. Each queue will hold at least one event. -/
def ofCapacity (capacity : Nat) : Switchboard where
  capacity := max 1 capacity

def route? (b : Switchboard) (c : Channel) : Option Nat :=
  b.routes.lookup c

def isAttached (b : Switchboard) (queue : Nat) : Bool :=
  b.routes.any (·.2 = queue)

def attachedCount (b : Switchboard) : Nat :=
  b.routes.length

def unroute (b : Switchboard) (c : Channel) : Switchboard :=
  { b with routes := b.routes.filter (·.1 ≠ c) }

def attach (b : Switchboard) (c : Channel) : Nat × Switchboard :=
  let queue := b.queues.size
  (queue, { b.unroute c with
    queues := b.queues.push (.ofCapacity b.capacity)
    routes := (c, queue) :: (b.unroute c).routes })

def detach (b : Switchboard) (c : Channel) : Bool × Switchboard :=
  ((b.route? c).isSome, b.unroute c)

def modify (b : Switchboard) (queue : Nat) (f : Queue → Queue) : Switchboard :=
  { b with queues := b.queues.modify queue f }

/-- Sends on one queue; there is nothing to send on when it does not exist. -/
def sendBy (b : Switchboard) (queue : Nat) (send : Queue → SendResult × Queue) :
    SendResult × Switchboard :=
  match b.queues[queue]? with
  | some q => ((send q).1, { b with queues := b.queues.setIfInBounds queue (send q).2 })
  | none => (.refused, b)

def issue (b : Switchboard) (ticket : Nat) (call : SinkCall) : Logged (Issue × Switchboard) :=
  match b.route? call.channel with
  | none => pure (.answered call.unrouted, b)
  | some queue => do
    let (result, b) := b.sendBy queue (·.offer ticket call.event)
    pure (← call.issue queue result, b)

def reissue (b : Switchboard) (ticket queue : Nat) (call : SinkCall) :
    Logged (Issue × Switchboard) := do
  let (result, b) := b.sendBy queue (·.retry ticket call.event)
  pure (← call.issue queue result, b)

def receive (b : Switchboard) (queue : Nat) : Reading × Switchboard :=
  match b.queues[queue]? with
  | some q =>
    let r := q.receive (b.isAttached queue)
    (r.1, { b with queues := b.queues.setIfInBounds queue r.2 })
  | none => (.dropped, b)

def eventsQueued (b : Switchboard) : Nat :=
  sumOf (·.events.size) b.queues.toList

end Switchboard

theorem SinkCall.toCome_issue_le (call : SinkCall) (queue : Nat) (result : SendResult) :
    (call.issue queue result).value.toCome + result.added ≤ 1 := by
  cases result <;> simp [issue, Issue.toCome, SendResult.added]

namespace Switchboard

/-- Replacing one summand of a sum changes it by the difference. -/
theorem sumOf_set {α : Type} (f : α → Nat) {l : List α} {i : Nat} {x : α}
    (h : l[i]? = some x) (y : α) : sumOf f (l.set i y) + f x = sumOf f l + f y := by
  induction l generalizing i with
  | nil => simp at h
  | cons a l ih =>
    cases i with
    | zero =>
      obtain rfl := Option.some.inj h
      simp only [List.set_cons_zero, sumOf_cons]
      omega
    | succ i =>
      have := ih (i := i) (by simpa using h)
      simp only [List.set_cons_succ, sumOf_cons]
      omega

theorem eventsQueued_setIfInBounds {b : Switchboard} {queue : Nat} {q : Queue}
    (h : b.queues[queue]? = some q) (q' : Queue) :
    eventsQueued { b with queues := b.queues.setIfInBounds queue q' } + q.events.size =
      b.eventsQueued + q'.events.size := by
  simp only [eventsQueued, Array.toList_setIfInBounds]
  exact sumOf_set (fun q : Queue => q.events.size) (by simpa using h) q'

theorem eventsQueued_sendBy (b : Switchboard) (queue : Nat) {send : Queue → SendResult × Queue}
    (h : ∀ q, (send q).2.events.size = q.events.size + (send q).1.added) :
    (b.sendBy queue send).2.eventsQueued =
      b.eventsQueued + (b.sendBy queue send).1.added := by
  unfold sendBy
  split
  · next q hq =>
    have := eventsQueued_setIfInBounds hq (send q).2
    have := h q
    dsimp only
    omega
  · rfl

/-- A sink call adds at most one event, now or when it has waited. -/
theorem eventsQueued_issue_le (b : Switchboard) (ticket : Nat) (call : SinkCall) :
    (b.issue ticket call).value.2.eventsQueued + (b.issue ticket call).value.1.toCome ≤
      b.eventsQueued + 1 := by
  unfold issue
  split
  · simp [Issue.toCome]
  · next queue _ =>
    have h := eventsQueued_sendBy b queue fun q => q.size_events_offer ticket call.event
    have h' := call.toCome_issue_le queue (b.sendBy queue (·.offer ticket call.event)).1
    simp only [Logged.value_bind, Logged.value_pure]
    omega

theorem eventsQueued_reissue_le (b : Switchboard) (ticket queue : Nat) (call : SinkCall) :
    (b.reissue ticket queue call).value.2.eventsQueued +
        (b.reissue ticket queue call).value.1.toCome ≤ b.eventsQueued + 1 := by
  have h := eventsQueued_sendBy b queue fun q => q.size_events_retry ticket call.event
  have h' := call.toCome_issue_le queue (b.sendBy queue (·.retry ticket call.event)).1
  simp only [reissue, Logged.value_bind, Logged.value_pure]
  omega

theorem eventsQueued_receive_lt {b : Switchboard} {queue : Nat} {e : ConsumerEvent}
    (h : (b.receive queue).1 = .event e) : (b.receive queue).2.eventsQueued < b.eventsQueued := by
  unfold Switchboard.receive at h ⊢
  split at h
  · next q hq =>
    have hs := eventsQueued_setIfInBounds hq (q.receive (b.isAttached queue)).2
    have hr := Queue.size_events_receive h
    dsimp only
    omega
  · simp at h

end Switchboard

end StreamFanout
