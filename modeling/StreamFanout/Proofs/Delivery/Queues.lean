import StreamFanout.Delivery.Dispatcher
import StreamFanout.Proofs.Distribution.Dues

/-!
Queues whose consumers listen, with at most one call that waits on any of them. A call on the sink
puts its event behind what is queued for its channel, now or when it has waited, and a consumer
takes what is queued first; nothing else changes what is queued for a channel.
-/
namespace StreamFanout

def Reading.event? : Reading → Option ConsumerEvent
  | .event e => some e
  | _ => none

namespace Queue

/-- The consumer listens, and `senders` are the sends that wait, with a slot reserved or not. -/
structure Serves (q : Queue) (senders : List Nat) : Prop where
  listening : q.consumer = .listening
  senders_eq : q.granted ++ q.line = senders

variable {q : Queue} {ticket : Nat} {e : ConsumerEvent} {senders : List Nat}

theorem serves_ofCapacity (capacity : Nat) : (ofCapacity capacity).Serves [] :=
  ⟨rfl, rfl⟩

theorem Serves.grant (h : q.Serves senders) : q.grant.Serves senders := by
  unfold Queue.grant
  split
  · exact h
  · next hline =>
    refine ⟨h.listening, ?_⟩
    have hs := h.senders_eq
    rw [hline] at hs
    simpa using hs

/-- An event is put behind the others, or its sender waits. -/
theorem Serves.offer (h : q.Serves []) (ticket : Nat) (e : ConsumerEvent) :
    ((q.offer ticket e).1 = .sent ∧ (q.offer ticket e).2.Serves [] ∧
        (q.offer ticket e).2.events.toList = q.events.toList ++ [e]) ∨
      ((q.offer ticket e).1 = .waiting ∧ (q.offer ticket e).2.Serves [ticket] ∧
        (q.offer ticket e).2.events.toList = q.events.toList) := by
  obtain ⟨hg, hline⟩ := List.append_eq_nil_iff.mp h.senders_eq
  unfold Queue.offer
  rw [if_neg (not_not_intro h.listening)]
  split
  · refine .inl ⟨rfl, ⟨h.listening, h.senders_eq⟩, ?_⟩
    exact Fifo.toList_push _ _
  · refine .inr ⟨rfl, ⟨h.listening, ?_⟩, rfl⟩
    simp [hg, hline]

/-- A send that has waited puts its event behind the others, or goes on waiting. -/
theorem Serves.retry (h : q.Serves [ticket]) (e : ConsumerEvent) :
    ((q.retry ticket e).1 = .sent ∧ (q.retry ticket e).2.Serves [] ∧
        (q.retry ticket e).2.events.toList = q.events.toList ++ [e]) ∨
      ((q.retry ticket e).1 = .waiting ∧ (q.retry ticket e).2.Serves [ticket] ∧
        (q.retry ticket e).2.events.toList = q.events.toList) := by
  unfold Queue.retry
  rw [if_neg (not_not_intro h.listening)]
  split
  · next hm =>
    refine .inl ⟨rfl, ⟨h.listening, ?_⟩, Fifo.toList_push _ _⟩
    have hs := h.senders_eq
    show q.granted.erase ticket ++ q.line = []
    rw [← List.erase_append_left q.line hm, hs]
    simp
  · exact .inr ⟨rfl, h, rfl⟩

/-- A consumer takes the event that is queued first. -/
theorem Serves.receive (h : q.Serves senders) (isAttached : Bool) :
    (q.receive isAttached).2.Serves senders ∧
      q.events.toList =
        (q.receive isAttached).1.event?.toList ++ (q.receive isAttached).2.events.toList := by
  unfold Queue.receive
  rw [h.listening]
  cases hp : q.events.pop? with
  | none =>
    refine ⟨h, ?_⟩
    dsimp only
    split <;> rfl
  | some popped =>
    obtain ⟨e, events⟩ := popped
    have hrest : Queue.Serves { q with events, consumer := .listening } senders :=
      ⟨rfl, h.senders_eq⟩
    refine ⟨hrest.grant, ?_⟩
    rw [Fifo.toList_of_pop? hp]
    show _ = [e] ++ (Queue.grant { q with events, consumer := .listening }).events.toList
    rw [events_grant]
    rfl

end Queue

namespace Switchboard

def contents (b : Switchboard) (queue : Nat) : List ConsumerEvent :=
  (b.queues[queue]?).elim [] (·.events.toList)

def queuedFor (b : Switchboard) (c : Channel) : List ConsumerEvent :=
  (b.route? c).elim [] b.contents

/-- All consumers listen, and the sends that wait on each queue are those of some calls. -/
def Serves (b : Switchboard) (waiting : List WaitingCall) : Prop :=
  ∀ k (q : Queue), b.queues[k]? = some q →
    q.Serves ((waiting.filter (·.queue = some k)).map WaitingCall.ticket)

/-- Each channel leads to a queue of its own. -/
structure Wired (b : Switchboard) (channels : List Channel) : Prop where
  routed : ∀ c ∈ channels, ∃ k, b.route? c = some k ∧ k < b.queues.size
  apart : ∀ c ∈ channels, ∀ d ∈ channels, b.route? c = b.route? d → c = d

/-- `b'` is `b` with the event of a call, or none, behind what is queued for its channel. -/
structure Gains (channels : List Channel) (call : Option SinkCall) (b b' : Switchboard) :
    Prop where
  routes_eq : b'.routes = b.routes
  size_eq : b'.queues.size = b.queues.size
  queued_eq : ∀ c ∈ channels,
    b'.queuedFor c = b.queuedFor c ++ (call.bind (·.eventOn? c)).toList

/-- What a call on the sink comes to: its event is queued, or it waits on the queue of its
channel. -/
inductive Sends (channels : List Channel) (ticket : Nat) (call : SinkCall) (task : Task)
    (b : Switchboard) : Issue × Switchboard → Prop
  | sent (b' : Switchboard) (hs : b'.Serves []) (hg : Gains channels (some call) b b') :
    Sends channels ticket call task b (.answered .accepted, b')
  | waits (k : Nat) (b' : Switchboard) (hk : b.route? call.channel = some k)
    (hs : b'.Serves [⟨ticket, some k, task⟩]) (hg : Gains channels none b b') :
    Sends channels ticket call task b (.waits k, b')

variable {b b' : Switchboard} {channels : List Channel} {k : Nat} {q : Queue}

theorem contents_of_queue (h : b.queues[k]? = some q) : b.contents k = q.events.toList := by
  rw [contents, h]
  rfl

theorem queuedFor_of_route {c : Channel} (h : b.route? c = some k) :
    b.queuedFor c = b.contents k := by
  rw [queuedFor, h]
  rfl

theorem contents_set (h : b.queues[k]? = some q) (q' : Queue) (j : Nat) :
    contents { b with queues := b.queues.setIfInBounds k q' } j =
      if j = k then q'.events.toList else b.contents j := by
  have hk : k < b.queues.size := (Array.getElem?_eq_some_iff.mp h).1
  unfold contents
  by_cases hj : j = k
  · subst hj
    simp [hk]
  · simp [Ne.symm hj, hj]

theorem queuedFor_set (h : b.queues[k]? = some q) (q' : Queue) {c : Channel} {j : Nat}
    (hj : b.route? c = some j) :
    queuedFor { b with queues := b.queues.setIfInBounds k q' } c =
      if j = k then q'.events.toList else b.contents j := by
  rw [← contents_set h]
  exact queuedFor_of_route hj

theorem serves_set {waiting waiting' : List WaitingCall} (h : b.Serves waiting) {q' : Queue}
    (hq : q'.Serves ((waiting'.filter (·.queue = some k)).map WaitingCall.ticket))
    (ho : ∀ j, j ≠ k → waiting'.filter (·.queue = some j) = waiting.filter (·.queue = some j)) :
    Serves { b with queues := b.queues.setIfInBounds k q' } waiting' := by
  intro j p hp
  rw [Array.getElem?_setIfInBounds] at hp
  split at hp
  · next hj =>
    split at hp
    · cases hp
      exact hj ▸ hq
    · cases hp
  · next hj =>
    rw [ho j (Ne.symm hj)]
    exact h j p hp

theorem route?_congr (h : b'.routes = b.routes) : b'.route? = b.route? := by
  funext c
  rw [route?, route?, h]

theorem Wired.congr (h : b.Wired channels) (hr : b'.routes = b.routes)
    (hs : b'.queues.size = b.queues.size) : b'.Wired channels := by
  constructor
  · rw [route?_congr hr, hs]
    exact h.routed
  · rw [route?_congr hr]
    exact h.apart

/-- A queue that takes the event of a call, or makes it wait, is seen on no other channel. -/
theorem gains_set (hw : b.Wired channels) {call : SinkCall} (hc : call.channel ∈ channels)
    (hk : b.route? call.channel = some k) (hq : b.queues[k]? = some q) {q' : Queue}
    {more : Option SinkCall} (hm : more = some call ∨ more = none)
    (he : q'.events.toList = q.events.toList ++ (more.map SinkCall.event).toList) :
    Gains channels more b { b with queues := b.queues.setIfInBounds k q' } := by
  refine ⟨rfl, Array.size_setIfInBounds, fun c hcm => ?_⟩
  obtain ⟨j, hj, -⟩ := hw.routed c hcm
  rw [queuedFor_set hq q' hj, queuedFor_of_route hj]
  by_cases hjk : j = k
  · have hcc : call.channel = c := hw.apart _ hc _ hcm (by rw [hk, hj, hjk])
    rw [if_pos hjk, hjk, contents_of_queue hq, he]
    rcases hm with rfl | rfl
    · simp [SinkCall.eventOn?, hcc]
    · rfl
  · have hcc : call.channel ≠ c := by
      rintro rfl
      exact hjk (Option.some.inj (hj.symm.trans hk))
    rw [if_neg hjk]
    rcases hm with rfl | rfl
    · simp [SinkCall.eventOn?, hcc]
    · simp

/-- A send on the queue of a call that succeeds or waits is what the call comes to. -/
theorem sends_of_send (hw : b.Wired channels) {ticket : Nat} {call : SinkCall} {task : Task}
    (hc : call.channel ∈ channels) (hk : b.route? call.channel = some k)
    {waiting : List WaitingCall} (hs : b.Serves waiting)
    (ho : ∀ j, j ≠ k → waiting.filter (·.queue = some j) = [])
    {send : Queue → SendResult × Queue}
    (hsend : ∀ q, b.queues[k]? = some q →
      ((send q).1 = .sent ∧ (send q).2.Serves [] ∧
          (send q).2.events.toList = q.events.toList ++ [call.event]) ∨
        ((send q).1 = .waiting ∧ (send q).2.Serves [ticket] ∧
          (send q).2.events.toList = q.events.toList)) :
    b.Sends channels ticket call task
      ((call.issue k (b.sendBy k send).1).value, (b.sendBy k send).2) := by
  obtain ⟨j, hj, hlt⟩ := hw.routed _ hc
  cases hk.symm.trans hj
  have hq : b.queues[k]? = some b.queues[k] := Array.getElem?_eq_getElem hlt
  have hsent : b.sendBy k send = ((send b.queues[k]).1,
      { b with queues := b.queues.setIfInBounds k (send b.queues[k]).2 }) := by
    rw [sendBy, hq]
  rw [hsent]
  rcases hsend _ hq with ⟨hr, hq', he⟩ | ⟨hr, hq', he⟩
  · rw [hr]
    refine .sent _ (serves_set hs hq' fun j hne => (ho j hne).symm) ?_
    exact gains_set hw hc hk hq (.inl rfl) he
  · rw [hr]
    refine .waits k _ hk (serves_set hs ?_ fun j hne => ?_) ?_
    · simpa using hq'
    · rw [ho j hne]
      simp [Ne.symm hne]
    · exact gains_set hw hc hk hq (.inr rfl) (by simpa using he)

theorem issue_sends (hw : b.Wired channels) (hs : b.Serves []) (ticket : Nat) {call : SinkCall}
    (hc : call.channel ∈ channels) (task : Task) :
    b.Sends channels ticket call task (b.issue ticket call).value := by
  obtain ⟨k, hk, -⟩ := hw.routed _ hc
  have hissue : (b.issue ticket call).value =
      ((call.issue k (b.sendBy k (·.offer ticket call.event)).1).value,
        (b.sendBy k (·.offer ticket call.event)).2) := by
    rw [issue, hk]
    rfl
  rw [hissue]
  exact sends_of_send hw hc hk hs (fun _ _ => rfl) fun q hq => (hs k q hq).offer ticket call.event

theorem reissue_sends (hw : b.Wired channels) {ticket : Nat} {task : Task}
    (hs : b.Serves [⟨ticket, some k, task⟩]) {call : SinkCall} (hc : call.channel ∈ channels)
    (hk : b.route? call.channel = some k) :
    b.Sends channels ticket call task (b.reissue ticket k call).value := by
  have hserves (q : Queue) (hq : b.queues[k]? = some q) : q.Serves [ticket] := by
    have h := hs _ q hq
    rwa [List.filter_cons_of_pos (by simp)] at h
  refine sends_of_send hw hc hk hs (fun j hne => ?_) fun q hq => (hserves q hq).retry call.event
  exact List.filter_cons_of_neg (by simpa using Ne.symm hne)

/-- A call that waits on no queue is in no line. -/
theorem serves_ready {ticket : Nat} {task : Task} :
    b.Serves [⟨ticket, none, task⟩] ↔ b.Serves [] := by
  have hnone (k : Nat) : [(⟨ticket, none, task⟩ : WaitingCall)].filter (·.queue = some k) = [] :=
    List.filter_cons_of_neg (by simp)
  simp only [Serves, hnone, List.filter_nil]

/-- A consumer takes what is queued first for its channel, and nothing else changes. -/
theorem receive_spec {waiting : List WaitingCall} (hw : b.Wired channels)
    (hs : b.Serves waiting) (queue : Nat) :
    let r := b.receive queue
    r.2.routes = b.routes ∧ r.2.queues.size = b.queues.size ∧ r.2.Serves waiting ∧
      ∀ c ∈ channels, b.queuedFor c =
        (if b.route? c = some queue then r.1.event?.toList else []) ++ r.2.queuedFor c := by
  intro r
  cases hq : b.queues[queue]? with
  | none =>
    have hr : r = (.dropped, b) := by
      show b.receive queue = _
      rw [receive, hq]
    rw [hr]
    refine ⟨rfl, rfl, hs, fun c _ => ?_⟩
    rw [show (Reading.dropped).event?.toList = [] from rfl, ite_self]
    rfl
  | some q =>
    obtain ⟨hserves, hevents⟩ := (hs queue q hq).receive (b.isAttached queue)
    have hr : r = ((q.receive (b.isAttached queue)).1, { b with
        queues := b.queues.setIfInBounds queue (q.receive (b.isAttached queue)).2 }) := by
      show b.receive queue = _
      rw [receive, hq]
    rw [hr]
    refine ⟨rfl, Array.size_setIfInBounds, serves_set hs hserves fun _ _ => rfl, fun c hc => ?_⟩
    obtain ⟨j, hj, -⟩ := hw.routed c hc
    dsimp only
    rw [queuedFor_set hq _ hj, queuedFor_of_route hj]
    by_cases hjk : j = queue
    · rw [if_pos (by rw [hj, hjk]), if_pos hjk, hjk, contents_of_queue hq, hevents]
    · rw [if_neg (by rw [hj]; exact fun he => hjk (Option.some.inj he)), if_neg hjk,
        List.nil_append]

end Switchboard

/-- The next attempt at a call, the first one or a further one on the queue of its channel. -/
theorem Dispatcher.attempt_sends {d : Dispatcher} {channels : List Channel}
    (hw : d.board.Wired channels) {ticket : Nat} {queue : Option Nat} {task : Task}
    (hs : d.board.Serves [⟨ticket, queue, task⟩]) {call : SinkCall} (hc : call.channel ∈ channels)
    (hk : ∀ k ∈ queue, d.board.route? call.channel = some k) :
    d.board.Sends channels ticket call task (d.attempt ticket call queue).value := by
  cases queue with
  | none => exact Switchboard.issue_sends hw (Switchboard.serves_ready.mp hs) ticket hc task
  | some k => exact Switchboard.reissue_sends hw hs hc (hk k rfl)

end StreamFanout
