import StreamFanout.Proofs.Delivery.Passes
import StreamFanout.Proofs.Delivery.Replay
import StreamFanout.Proofs.Delivery.Streams

/-!
A pass and one channel whose consumer keeps listening. Its calls on this channel are accepted or
wait, so what the pass puts on the queue of the channel is what was due there, whatever the other
consumers do to the calls in between.
-/
namespace StreamFanout

variable {c : Channel} {k : Nat}

def Issue.put (c : Channel) (call : SinkCall) : Issue → List ConsumerEvent
  | .answered _ => (call.eventOn? c).toList
  | .waits _ => []

theorem Queue.offer_ne_refused {q : Queue} (h : q.consumer = .listening) (ticket : Nat)
    (e : ConsumerEvent) : (q.offer ticket e).1 ≠ .refused := by
  unfold Queue.offer
  rw [if_neg fun hne => hne h]
  split <;> exact nofun

theorem Queue.retry_ne_refused {q : Queue} (h : q.consumer = .listening) (ticket : Nat)
    (e : ConsumerEvent) : (q.retry ticket e).1 ≠ .refused := by
  unfold Queue.retry
  rw [if_neg fun hne => hne h]
  split <;> exact nofun

namespace Switchboard

variable {b : Switchboard}

/-- The channel `c` and no other leads to the queue `k`, whose consumer listens. -/
structure Dedicated (b : Switchboard) (c : Channel) (k : Nat) : Prop where
  route_eq : b.route? c = some k
  only : ∀ d, b.route? d = some k → d = c
  listening : b.consumer? k = some .listening

theorem Dedicated.congr (h : b.Dedicated c k) {b' : Switchboard} (hr : b'.routes = b.routes)
    (hc : b'.consumer? k = b.consumer? k) : b'.Dedicated c k where
  route_eq := (congrFun (route?_congr hr) c).trans h.route_eq
  only d hd := h.only d ((congrFun (route?_congr hr) d).symm.trans hd)
  listening := hc.trans h.listening

theorem sendBy_ne_refused (h : b.consumer? k = some .listening) {send : Queue → SendResult × Queue}
    (hs : ∀ q, q.consumer = .listening → (send q).1 ≠ .refused) :
    (b.sendBy k send).1 ≠ .refused := by
  obtain ⟨q, hq, hlistens⟩ := Option.map_eq_some_iff.mp h
  rw [sendBy, hq]
  exact hs q hlistens

/-- What an attempt of a call does to the channel `c` with its queue `k`. -/
structure Attempted (b : Switchboard) (c : Channel) (k : Nat) (call : SinkCall)
    (r : Issue × Switchboard) : Prop where
  dedicated : r.2.Dedicated c k
  contents_eq : r.2.contents k = b.contents k ++ r.1.put c call
  accepted : ∀ answer, call.channel = c → r.1 = .answered answer → answer = .accepted
  waits : ∀ j, call.channel = c → r.1 = .waits j → j = k

theorem Dedicated.attempted_sendBy (h : b.Dedicated c k) {call : SinkCall} {j : Nat}
    (hj : call.channel = c ↔ j = k) {send : Queue → SendResult × Queue}
    (hs : Queue.Puts call.event send)
    (hl : ∀ q, q.consumer = .listening → (send q).1 ≠ .refused) :
    b.Attempted c k call
      ((call.issue j (b.sendBy j send).1).value, (b.sendBy j send).2) := by
  have hcontents := contents_sendBy (b := b) j hs k
  have hded : (b.sendBy j send).2.Dedicated c k :=
    h.congr (routes_sendBy _ _ _) (consumer?_sendBy _ _ hs.consumer_eq k)
  have hnever (hjk : j = k) : (b.sendBy j send).1 ≠ .refused :=
    sendBy_ne_refused (hjk ▸ h.listening) hl
  generalize b.sendBy j send = r at hcontents hded hnever
  obtain ⟨result, b'⟩ := r
  have hevent : (call.eventOn? c).toList = if k = j then [call.event] else [] := by
    by_cases hc : call.channel = c
    · rw [SinkCall.eventOn?, if_pos hc, if_pos (hj.mp hc).symm]
      rfl
    · rw [SinkCall.eventOn?, if_neg hc, if_neg fun he => hc (hj.mpr he.symm)]
      rfl
  cases result with
  | sent =>
    refine ⟨hded, hcontents.trans ?_, fun answer _ he => ?_, (fun _ _ he => by cases he)⟩
    · show _ = _ ++ (call.eventOn? c).toList
      rw [hevent]
      rfl
    · cases he
      rfl
  | refused =>
    have hjk : j ≠ k := fun he => hnever he rfl
    refine ⟨hded, hcontents.trans ?_, fun _ hc => absurd (hj.mp hc) hjk,
      fun _ hc => absurd (hj.mp hc) hjk⟩
    show _ = _ ++ (call.eventOn? c).toList
    rw [hevent, if_neg hjk.symm, if_neg hjk.symm]
  | waiting =>
    refine ⟨hded, hcontents.trans ?_, (fun _ _ he => by cases he), fun i hc he => ?_⟩
    · show _ ++ (if k = j then [] else []) = _ ++ []
      rw [ite_self]
    · cases he
      exact hj.mp hc

theorem Dedicated.attempted_issue (h : b.Dedicated c k) (ticket : Nat) (call : SinkCall) :
    b.Attempted c k call (b.issue ticket call).value := by
  rw [issue]
  cases hr : b.route? call.channel with
  | none =>
    have hc : call.channel ≠ c := fun he => by cases (he ▸ hr).symm.trans h.route_eq
    refine ⟨h, ?_, fun _ he => absurd he hc, fun _ he => absurd he hc⟩
    show _ = _ ++ (call.eventOn? c).toList
    rw [SinkCall.eventOn?, if_neg hc]
    exact (List.append_nil _).symm
  | some j =>
    refine h.attempted_sendBy ⟨fun he => ?_, fun he => ?_⟩ (Queue.puts_offer ticket call.event)
      fun q hq => q.offer_ne_refused hq _ _
    · exact Option.some.inj ((he ▸ hr).symm.trans h.route_eq)
    · exact h.only _ (he ▸ hr)

theorem Dedicated.attempted_reissue (h : b.Dedicated c k) (ticket : Nat) {j : Nat}
    {call : SinkCall} (hj : call.channel = c ↔ j = k) :
    b.Attempted c k call (b.reissue ticket j call).value :=
  h.attempted_sendBy hj (Queue.puts_retry ticket call.event) fun q hq => q.retry_ne_refused hq _ _

end Switchboard

namespace Dispatcher

variable {gops : List Gop} {plan : Partition} {kept : Channel → Prop} {d : Dispatcher}
  {ticket : Nat} {queue : Option Nat} {p : Pass}

theorem attempted_attempt (h : d.board.Dedicated c k) (ticket : Nat) {call : SinkCall}
    (hq : ∀ j ∈ queue, call.channel = c ↔ j = k) :
    d.board.Attempted c k call (d.attempt ticket call queue).value := by
  cases queue with
  | none => exact h.attempted_issue ticket call
  | some j => exact h.attempted_reissue ticket (hq j rfl)

/-- No channel that is kept is named, and none outside the plan. -/
def Names (plan : Partition) (kept : Channel → Prop) (result : Except FanoutError Report) : Prop :=
  ∀ failed, result = .error (.pushFailed failed) →
    ∀ f ∈ failed, f ∈ plan.blocks.map Block.channel ∧ ¬kept f

/-- What has become of the pass `p` when it is left alone again: on the queue of each channel that
is kept it has put what was due first. -/
inductive Puts (gops : List Gop) (plan : Partition) (kept : Channel → Prop) (b : Switchboard)
    (p : Pass) : TaskProgress × Dispatcher → Prop
  | waits (queue : Option Nat) (p' : Pass) (e : Dispatcher)
    (hp : (Progress.waiting p').Keeps gops plan kept)
    (hc : ∀ c k, kept c → b.Dedicated c k → e.board.Dedicated c k ∧
      (∀ call ∈ p'.call?, call.channel = c → ∀ j ∈ queue, j = k) ∧
      ∃ put, e.board.contents k = b.contents k ++ put ∧ p.due c = put ++ p'.due c) :
    Puts gops plan kept b p (.waiting queue (.pass p'), e)
  | ends (result : Except FanoutError Report) (e : Dispatcher) (hr : Names plan kept result)
    (hc : ∀ c k, kept c → b.Dedicated c k → e.board.contents k = b.contents k ++ p.due c) :
    Puts gops plan kept b p (.finished (.streamEnded result), e)

theorem Puts.trans {b b' : Switchboard} {p' : Pass} {r : TaskProgress × Dispatcher}
    (h : ∀ c k, kept c → b.Dedicated c k → b'.Dedicated c k ∧
      ∃ put, b'.contents k = b.contents k ++ put ∧ p.due c = put ++ p'.due c)
    (h' : Puts gops plan kept b' p' r) : Puts gops plan kept b p r := by
  cases h' with
  | waits queue q e hp hc =>
    refine .waits queue q e hp fun c k hk hb => ?_
    obtain ⟨hb', put, hcontents, hdue⟩ := h c k hk hb
    obtain ⟨he, hj, put', hcontents', hdue'⟩ := hc c k hk hb'
    refine ⟨he, hj, put ++ put', ?_, ?_⟩
    · rw [hcontents', hcontents, List.append_assoc]
    · rw [hdue, hdue', List.append_assoc]
  | ends result e hr hc =>
    refine .ends result e hr fun c k hk hb => ?_
    obtain ⟨hb', put, hcontents, hdue⟩ := h c k hk hb
    rw [hc c k hk hb', hcontents, hdue, List.append_assoc]

/-- A pass leaves its stop: the event of its call, if it stands at one, is on its queue, and on a
channel that is kept the call was accepted. -/
theorem puts_resume (hn : (plan.blocks.map Block.channel).Nodup)
    (hm : ∀ c, kept c → c ∈ plan.blocks.map Block.channel)
    (hp : (Progress.waiting p).Keeps gops plan kept) (hl : ∀ c, kept c → c ∈ d.fanout.live)
    {b : Switchboard} {answer : Answer}
    (ha : ∀ c, p.call?.map SinkCall.channel = some c → kept c → answer = .accepted)
    (hb : ∀ c k, kept c → b.Dedicated c k → d.board.Dedicated c k ∧
      d.board.contents k = b.contents k ++ (p.call?.bind (SinkCall.eventOn? c)).toList) :
    Puts gops plan kept b p (d.resume (.pass p) answer).value := by
  have hlive (c : Channel) (hc : kept c) : d.fanout.roster.contains c = true :=
    Roster.contains_iff.mpr (hl c hc)
  rw [resume, Logged.value_bind]
  rcases Fanout.resume_of_keeps (fun c _ => hlive c) hn hp ha with
    ⟨p', hr, hk, hrest⟩ | ⟨lanes, hr, hk, hrest⟩
  · rw [hr]
    refine .waits none p' d hk fun c k hc hded => ?_
    obtain ⟨hded', hcontents⟩ := hb c k hc hded
    refine ⟨hded', (fun _ _ _ j hj => by cases hj), _, hcontents, ?_⟩
    rw [hrest c (hm c hc) hc]
    exact p.due_eq hp.inStep hp.scope_nodup c
  · rw [hr]
    refine .ends _ _ (fun failed hf => Fanout.failed_book_of_keeps hk hf) fun c k hc hded => ?_
    rw [p.due_eq hp.inStep hp.scope_nodup c, hrest c (hm c hc) hc, List.append_nil]
    exact (hb c k hc hded).2

/-- One step of a pass. -/
theorem puts_step (ticket : Nat) (hn : (plan.blocks.map Block.channel).Nodup)
    (hm : ∀ c, kept c → c ∈ plan.blocks.map Block.channel)
    (hp : (Progress.waiting p).Keeps gops plan kept)
    (hl : ∀ c, kept c → c ∈ d.fanout.live ∧ ∃ k, d.board.Dedicated c k)
    (hq : ∀ c k, kept c → d.board.Dedicated c k → ∀ call ∈ p.call?, ∀ j ∈ queue,
      call.channel = c ↔ j = k) :
    Puts gops plan kept d.board p (d.step ticket queue (.pass p)).value := by
  rw [step, Task.call?]
  cases hcall : p.call? with
  | none =>
    refine puts_resume hn hm hp (fun c hc => (hl c hc).1) (fun c he => ?_) fun c k _ hded => ?_
    · rw [hcall] at he
      cases he
    · rw [hcall]
      exact ⟨hded, (List.append_nil _).symm⟩
  | some call =>
    have hattempted (c : Channel) (k : Nat) (hc : kept c) (hded : d.board.Dedicated c k) :=
      attempted_attempt hded ticket (hq c k hc hded call hcall)
    rw [Logged.value_bind]
    generalize (d.attempt ticket call queue).value = r at hattempted ⊢
    obtain ⟨issue, board⟩ := r
    cases issue with
    | waits j =>
      refine .waits (some j) p { d with board } hp fun c k hc hded => ?_
      have ha := hattempted c k hc hded
      refine ⟨ha.dedicated, fun call' hcall' he i hi => ?_, [], ha.contents_eq, rfl⟩
      cases hcall.symm.trans hcall'
      cases hi
      exact ha.waits j he rfl
    | answered answer =>
      refine puts_resume (d := { d with board }) hn hm hp (fun c hc => (hl c hc).1)
        (fun c he hc => ?_) fun c k hc hded => ?_
      · obtain ⟨-, k, hded⟩ := hl c hc
        rw [hcall] at he
        exact (hattempted c k hc hded).accepted answer (Option.some.inj he) rfl
      · have ha := hattempted c k hc hded
        rw [hcall]
        exact ⟨ha.dedicated, ha.contents_eq⟩

/-- A pass that is taken on by as many steps as one likes. -/
theorem puts_proceed (ticket limit : Nat) {queue : Option Nat}
    (hn : (plan.blocks.map Block.channel).Nodup)
    (hm : ∀ c, kept c → c ∈ plan.blocks.map Block.channel)
    (hp : (Progress.waiting p).Keeps gops plan kept)
    (hl : ∀ c, kept c → c ∈ d.fanout.live ∧ ∃ k, d.board.Dedicated c k)
    (hq : ∀ c k, kept c → d.board.Dedicated c k → ∀ call ∈ p.call?, ∀ j ∈ queue,
      call.channel = c ↔ j = k) :
    Puts gops plan kept d.board p (d.proceed ticket limit queue (.pass p)).value := by
  induction limit generalizing d queue p with
  | zero =>
    exact .waits queue p d hp fun c k hc hded =>
      ⟨hded, fun call hcall he j hj => (hq c k hc hded call hcall j hj).mp he, [],
        (List.append_nil _).symm, rfl⟩
  | succ limit ih =>
    have hstep := puts_step ticket hn hm hp hl hq
    have hlive := live_of_intake (d.intake_step ticket queue (.pass p))
    rw [proceed, Logged.value_bind]
    generalize (d.step ticket queue (.pass p)).value = r at hstep hlive ⊢
    cases hstep with
    | ends result e hr hc => exact .ends result e hr hc
    | waits queue' p' e hp' hc =>
      cases queue' with
      | some j => exact .waits (some j) p' e hp' hc
      | none =>
        refine Puts.trans (fun c k hk hded => ?_) (ih hp' (fun c hk => ?_)
          fun _ _ _ _ _ _ j hj => by cases hj)
        · obtain ⟨hded', -, hput⟩ := hc c k hk hded
          exact ⟨hded', hput⟩
        · obtain ⟨hmem, k, hded⟩ := hl c hk
          exact ⟨hlive ▸ hmem, k, (hc c k hk hded).1⟩

end Dispatcher

end StreamFanout
