import Mathlib.Logic.Function.Basic
import StreamFanout.Proofs.Delivery.Queues

/-!
A switchboard with the calls on the sink that it holds, and the journal of what happens there. A
call looks up its queue when it is made, and is held with this queue while it waits; the journal
tells when calls begin, when their events are sent and how they end.
-/
namespace StreamFanout

/-- One thing that is done at a switchboard. A call carries the ticket under which it is held if it
has to wait, and whether the host makes it or a pass. -/
inductive Act where
  | attach (channel : Channel)
  | detach (channel : Channel)
  | call (ticket : Nat) (byHost : Bool) (call : SinkCall)
  | retry (ticket : Nat)
  | giveUp (ticket : Nat)
  | receive (queue : Nat)
  | close (queue : Nat)
  | drop (queue : Nat)

def Act.Attempts (ticket : Nat) : Act → Prop
  | call t .. | retry t => t = ticket
  | _ => False

/-- What is told in the journal. Calls are numbered in the order in which they begin. -/
inductive Incident where
  | attached (channel : Channel) (queue : Nat)
  | detached (channel : Channel)
  | begun (number : Nat) (call : SinkCall)
  | sent (number : Nat) (call : SinkCall) (queue : Nat)
  | returned (number : Nat) (byHost : Bool) (call : SinkCall) (answer : Answer)
  | givenUp (number : Nat)
  | read (queue : Nat) (event : ConsumerEvent)

namespace Incident

def number? : Incident → Option Nat
  | begun n _ | sent n _ _ | returned n _ _ _ | givenUp n => some n
  | _ => none

def sentOn? (queue : Nat) : Incident → Option ConsumerEvent
  | sent _ call k => if k = queue then some call.event else none
  | _ => none

def readOn? (queue : Nat) : Incident → Option ConsumerEvent
  | read k e => if k = queue then some e else none
  | _ => none

def pushed? : Incident → Option Answer
  | returned _ true (.push ..) answer => some answer
  | _ => none

/-- From here on a channel leads to another queue, or to none. -/
def Reroutes (c : Channel) : Incident → Prop
  | attached d _ | detached d => d = c
  | _ => False

end Incident

/-- A call that waits, with the queue that it has looked up. -/
structure Held where
  number : Nat
  queue : Nat
  byHost : Bool
  call : SinkCall

structure Exchange where
  board : Switchboard
  /-- The calls that wait, by their tickets. -/
  held : Nat → Option Held := fun _ => none
  /-- Number of calls made so far. -/
  begun : Nat := 0

namespace Exchange

def hold (x : Exchange) (ticket : Nat) (h : Held) : Exchange :=
  { x with held := Function.update x.held ticket (some h), begun := x.begun + 1 }

/-- What becomes of a call after an attempt to send its event. -/
def conclude (x : Exchange) (ticket : Nat) (h : Held) (attempt : SendResult × Switchboard) :
    List Incident × Exchange :=
  let next (held : Option Held) :=
    { x with board := attempt.2, held := Function.update x.held ticket held }
  match attempt.1 with
  | .sent => ([.sent h.number h.call h.queue, .returned h.number h.byHost h.call .accepted],
      next none)
  | .refused => ([.returned h.number h.byHost h.call h.call.consumerGone.value], next none)
  | .waiting => ([], next (some h))

def act (x : Exchange) : Act → List Incident × Exchange
  | .attach c =>
    ([.attached c (x.board.attach c).1], { x with board := (x.board.attach c).2 })
  | .detach c => ([.detached c], { x with board := (x.board.detach c).2 })
  | .call ticket byHost call =>
    match x.held ticket with
    | some _ => ([], x)
    | none =>
      let n := x.begun
      match x.board.route? call.channel with
      | none =>
        ([.begun n call, .returned n byHost call call.unrouted], { x with begun := n + 1 })
      | some k =>
        let h : Held := ⟨n, k, byHost, call⟩
        let rest := (x.hold ticket h).conclude ticket h
          (x.board.sendBy k (·.offer ticket call.event))
        (.begun n call :: rest.1, rest.2)
  | .retry ticket =>
    match x.held ticket with
    | none => ([], x)
    | some h => x.conclude ticket h (x.board.sendBy h.queue (·.retry ticket h.call.event))
  | .giveUp ticket =>
    match x.held ticket with
    | none => ([], x)
    | some h =>
      ([.givenUp h.number], { x with
        board := x.board.modify h.queue (·.forget ticket)
        held := Function.update x.held ticket none })
  | .receive queue =>
    ((x.board.receive queue).1.event?.toList.map (.read queue),
      { x with board := (x.board.receive queue).2 })
  | .close queue => ([], { x with board := x.board.modify queue Queue.close })
  | .drop queue => ([], { x with board := x.board.modify queue Queue.drop })

def run (x : Exchange) : List Act → List Incident × Exchange
  | [] => ([], x)
  | a :: acts =>
    let first := x.act a
    let rest := first.2.run acts
    (first.1 ++ rest.1, rest.2)

/-- What an act can do, with all that holds then. -/
inductive Takes (x : Exchange) : Act → List Incident × Exchange → Prop
  | attach (c : Channel) : x.Takes (.attach c)
      ([.attached c x.board.queues.size], { x with board := (x.board.attach c).2 })
  | detach (c : Channel) :
    x.Takes (.detach c) ([.detached c], { x with board := x.board.unroute c })
  /-- The ticket is taken, so no call is made. -/
  | busy (ticket : Nat) (byHost : Bool) (call : SinkCall) (h : Held)
      (hh : x.held ticket = some h) : x.Takes (.call ticket byHost call) ([], x)
  | unrouted (ticket : Nat) (byHost : Bool) (call : SinkCall) (hh : x.held ticket = none)
      (hr : x.board.route? call.channel = none) : x.Takes (.call ticket byHost call)
      ([.begun x.begun call, .returned x.begun byHost call call.unrouted],
        { x with begun := x.begun + 1 })
  | call (ticket : Nat) (byHost : Bool) (call : SinkCall) (k : Nat) (hh : x.held ticket = none)
      (hr : x.board.route? call.channel = some k) (r : List Incident × Exchange)
      (hc : r = (x.hold ticket ⟨x.begun, k, byHost, call⟩).conclude ticket
        ⟨x.begun, k, byHost, call⟩ (x.board.sendBy k (·.offer ticket call.event))) :
      x.Takes (.call ticket byHost call) (.begun x.begun call :: r.1, r.2)
  | retry (ticket : Nat) (h : Held) (hh : x.held ticket = some h) : x.Takes (.retry ticket)
      (x.conclude ticket h (x.board.sendBy h.queue (·.retry ticket h.call.event)))
  | giveUp (ticket : Nat) (h : Held) (hh : x.held ticket = some h) : x.Takes (.giveUp ticket)
      ([.givenUp h.number], { x with
        board := x.board.modify h.queue (·.forget ticket)
        held := Function.update x.held ticket none })
  /-- No call is held under the ticket. -/
  | void (a : Act) (ticket : Nat) (ha : a = .retry ticket ∨ a = .giveUp ticket)
      (hh : x.held ticket = none) : x.Takes a ([], x)
  | receive (queue : Nat) : x.Takes (.receive queue)
      ((x.board.receive queue).1.event?.toList.map (.read queue),
        { x with board := (x.board.receive queue).2 })
  | close (queue : Nat) :
      x.Takes (.close queue) ([], { x with board := x.board.modify queue Queue.close })
  | drop (queue : Nat) :
      x.Takes (.drop queue) ([], { x with board := x.board.modify queue Queue.drop })

theorem takes_act (x : Exchange) (a : Act) : x.Takes a (x.act a) := by
  cases a with
  | attach c => exact .attach c
  | detach c => exact .detach c
  | call ticket byHost call =>
    cases hh : x.held ticket with
    | some h =>
      simp only [act, hh]
      exact .busy ticket byHost call h hh
    | none =>
      cases hr : x.board.route? call.channel with
      | none =>
        simp only [act, hh, hr]
        exact .unrouted ticket byHost call hh hr
      | some k =>
        simp only [act, hh, hr]
        exact .call ticket byHost call k hh hr _ rfl
  | retry ticket =>
    cases hh : x.held ticket with
    | none =>
      simp only [act, hh]
      exact .void _ ticket (.inl rfl) hh
    | some h =>
      simp only [act, hh]
      exact .retry ticket h hh
  | giveUp ticket =>
    cases hh : x.held ticket with
    | none =>
      simp only [act, hh]
      exact .void _ ticket (.inr rfl) hh
    | some h =>
      simp only [act, hh]
      exact .giveUp ticket h hh
  | receive queue => exact .receive queue
  | close queue => exact .close queue
  | drop queue => exact .drop queue

section

variable {x : Exchange} {ticket t : Nat} {h g : Held}

theorem held_hold_iff : (x.hold ticket h).held t = some g ↔
    t = ticket ∧ g = h ∨ t ≠ ticket ∧ x.held t = some g := by
  show Function.update x.held ticket (some h) t = some g ↔ _
  rw [Function.update_apply]
  split
  · next ht => simp [ht, eq_comm]
  · next ht => simp [ht]

theorem held_free_iff :
    Function.update x.held ticket none t = some g ↔ t ≠ ticket ∧ x.held t = some g := by
  rw [Function.update_apply]
  split
  · next ht => simp [ht]
  · next ht => simp [ht]

end

def ofCapacity (capacity : Nat) : Exchange where
  board := .ofCapacity capacity

@[simp] theorem run_nil (x : Exchange) : x.run [] = ([], x) := rfl

theorem run_singleton (x : Exchange) (a : Act) : x.run [a] = x.act a := by
  rw [run, run_nil, List.append_nil]

theorem run_append (x : Exchange) (xs ys : List Act) :
    x.run (xs ++ ys) =
      ((x.run xs).1 ++ ((x.run xs).2.run ys).1, ((x.run xs).2.run ys).2) := by
  induction xs generalizing x with
  | nil => rfl
  | cons a xs ih =>
    rw [List.cons_append, run, ih, run, List.append_assoc]

/-- What acts keep of a state and the journal so far holds after every run. -/
theorem run_induction {P : Exchange → List Incident → Prop}
    (hact : ∀ x journal a, P x journal → P (x.act a).2 (journal ++ (x.act a).1))
    {x : Exchange} {journal : List Incident} (h : P x journal) (acts : List Act) :
    P (x.run acts).2 (journal ++ (x.run acts).1) := by
  induction acts generalizing x journal with
  | nil => rwa [run_nil, List.append_nil]
  | cons a acts ih =>
    rw [run, ← List.append_assoc]
    exact ih (hact x journal a h)

end Exchange

end StreamFanout
