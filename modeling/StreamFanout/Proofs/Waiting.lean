import StreamFanout.Delivery.Drain
import StreamFanout.Proofs.Delivery.Locks
import StreamFanout.Proofs.Delivery.Wakes

/-!
What a call waits for. Once all calls that can go on have been polled, each call that still waits
stands in the line of one full queue, and nothing else is held up: calls of the host, changes of the
routes, and pushes to queues that are not full find no lock taken and are over at once.
-/
namespace StreamFanout

namespace Dispatcher

variable {d : Dispatcher} {x : Exchange} {capacity : Nat}

/-- Each call that waits does so on a queue, and has not been woken since it was last polled. -/
def Settled (d : Dispatcher) : Prop :=
  ∀ w ∈ d.waiting, ∃ k ∈ w.queue, ∀ q ∈ d.board.queues[k]?, q.Asleep w.ticket

instance : DecidablePred Settled := fun d =>
  inferInstanceAs (Decidable (∀ w ∈ d.waiting, ∃ k ∈ w.queue, ∀ q ∈ d.board.queues[k]?,
    q.consumer = .listening ∧ w.ticket ∉ q.granted))

/-- A task that can go on after a step has fewer steps left. -/
theorem stepsLeft_step_lt {ticket : Nat} {queue : Option Nat} {task next : Task}
    (h : (d.step ticket queue task).value.1 = .waiting none next) :
    next.stepsLeft < task.stepsLeft := by
  have resumed {d : Dispatcher} {answer : Answer}
      (h : (d.resume task answer).value.1 = .waiting none next) :
      next.stepsLeft < task.stepsLeft := by
    have hlt := (d.stepsLeft_resume_lt task answer).1
    rw [h] at hlt
    exact hlt
  rw [step] at h
  split at h
  · exact resumed h
  · rw [Logged.value_bind] at h
    split at h
    · cases h
    · exact resumed h

/-- With as many steps as it has left a task is over, or has come to wait on a queue. -/
theorem exists_queue_of_proceed {ticket limit : Nat} {queue queue' : Option Nat} {task task' : Task}
    (hl : task.stepsLeft ≤ limit)
    (h : (d.proceed ticket limit queue task).value.1 = .waiting queue' task') :
    ∃ k, queue' = some k := by
  induction limit generalizing d queue task with
  | zero => exact absurd (stepsLeft_pos task) (Nat.not_lt.mpr hl)
  | succ limit ih =>
    rw [proceed, Logged.value_bind] at h
    split at h
    · next next d' hstep =>
      have hlt : next.stepsLeft < task.stepsLeft := stepsLeft_step_lt (congrArg Prod.fst hstep)
      exact ih (Nat.le_of_lt_succ (Nat.lt_of_lt_of_le hlt hl)) h
    · next hstopped =>
      cases queue' with
      | some k => exact ⟨k, rfl⟩
      | none => exact (hstopped task' _ (Prod.ext h rfl)).elim

theorem Tracks.find?_of_mem (h : d.Tracks x) {w : WaitingCall} (hw : w ∈ d.waiting) :
    d.waiting.find? (·.ticket = w.ticket) = some w := by
  refine List.find?_eq_some_iff_append.mpr ⟨decide_eq_true rfl, ?_⟩
  obtain ⟨before, after, he⟩ := List.append_of_mem hw
  refine ⟨before, after, he, fun v hv => ?_⟩
  have hn := h.nodup
  rw [he, List.map_append, List.map_cons, List.nodup_append] at hn
  have hne := hn.2.2 v.ticket (List.mem_map_of_mem hv) w.ticket List.mem_cons_self
  simpa using hne

/-- A call that waits on a queue is held by the exchange, and stands at a call of the sink. -/
theorem Tracks.held_of_mem (h : d.Tracks x) {w : WaitingCall} (hw : w ∈ d.waiting) {k : Nat}
    (hk : w.queue = some k) :
    ∃ g, x.held w.ticket = some g ∧ g.queue = k ∧ w.task.call? = some g.call := by
  have hplace := h.held_place (h.find?_of_mem hw)
  rw [WaitingCall.place?, Task.place?, hk] at hplace
  obtain ⟨g, hg, hp⟩ := Option.map_eq_some_iff.mp hplace
  exact ⟨g, hg, congrArg Prod.fst hp, (congrArg (·.2.2) hp).symm⟩

theorem Tracks.mem_of_held (h : d.Tracks x) {t : Nat} {g : Held} (hg : x.held t = some g) :
    ∃ w ∈ d.waiting, w.ticket = t ∧ w.queue = some g.queue := by
  have hheld := h.held_eq t
  rw [hg] at hheld
  obtain ⟨w, hw, hp⟩ := Option.bind_eq_some_iff.mp hheld.symm
  obtain ⟨k, hk, hsame⟩ := Option.map_eq_some_iff.mp hp
  have ht : w.ticket = t := by simpa using List.find?_some hw
  have hqueue : k = g.queue := congrArg Prod.fst hsame
  exact ⟨w, List.mem_of_find?_eq_some hw, ht, hk.trans (congrArg some hqueue)⟩

theorem Tracks.settled (h : d.Tracks x)
    (hs : ∀ w ∈ d.waiting, (∃ k, w.queue = some k) ∧ x.Asleep w.ticket) : d.Settled := by
  intro w hw
  obtain ⟨⟨k, hk⟩, hasleep⟩ := hs w hw
  obtain ⟨g, hg, he, -⟩ := h.held_of_mem hw hk
  refine ⟨k, hk, fun q hq => hasleep g hg q ?_⟩
  rw [h.board_eq, he]
  exact hq

/-- A poll leaves its own call asleep, and all others as they were. -/
theorem Tracks.asleep_poll (h : d.Tracks x) (hx : x.Lined capacity) {ticket t : Nat}
    (ht : t = ticket ∨ x.Asleep t) : (x.run (d.acts (.poll ticket))).2.Asleep t := by
  cases hw : d.waiting.find? (·.ticket = ticket) with
  | none =>
    have hheld := h.held_eq ticket
    rw [hw] at hheld
    simp only [acts, hw]
    refine ht.elim (fun he => ?_) id
    exact Exchange.asleep_of_free (he ▸ Option.map_eq_none_iff.mp hheld)
  | some w =>
    have hplace := h.held_place hw
    have hattempts := d.attempts_actsFrom ticket w.task.stepsLeft w.queue w.task
    simp only [acts, hw, Option.getD_none]
    by_cases hne : t = ticket
    · subst hne
      cases hg : x.held t with
      | none => exact hx.asleep_run (Exchange.asleep_of_free hg) hattempts
      | some g =>
        -- the call waits on a queue, so the first of its steps takes it on there
        rw [hg] at hplace
        obtain ⟨k, hk, hsame⟩ := Option.map_eq_some_iff.mp hplace.symm
        have hcall : w.task.call? = some g.call := congrArg (·.2.2) hsame
        obtain ⟨n, hn⟩ := Nat.exists_eq_add_one.mpr (stepsLeft_pos w.task)
        have hfirst : actsOfStep t w.queue w.task = [.retry t] := by
          simp only [actsOfStep, hcall, hk]
        rw [hn, actsFrom, hfirst] at hattempts ⊢
        exact (hx.act _).asleep_run (x.asleep_retry t) fun a ha =>
          hattempts a (List.mem_cons_of_mem _ ha)
    · exact hx.asleep_run (ht.resolve_left hne) hattempts

/-- A call that waits after a poll has not been polled, or waits on a queue. -/
theorem mem_waiting_poll (hd : (d.waiting.map WaitingCall.ticket).Nodup) {ticket : Nat}
    {w : WaitingCall} (hw : w ∈ (d.poll ticket).value.2.waiting) :
    w ∈ d.waiting ∧ w.ticket ≠ ticket ∨ w.ticket = ticket ∧ ∃ k, w.queue = some k := by
  cases hv : d.waiting.find? (·.ticket = ticket) with
  | none =>
    rw [poll, hv] at hw
    exact .inl ⟨hw, fun he => List.find?_eq_none.mp hv w hw (decide_eq_true he)⟩
  | some v =>
    have hpolls := polls_poll hv none
    have hqueue {queue : Option Nat} {task : Task}
        (h : (d.proceed ticket v.task.stepsLeft v.queue v.task).value.1 = .waiting queue task) :
        ∃ k, queue = some k :=
      exists_queue_of_proceed (Nat.le_refl _) h
    simp only [Option.getD_none] at hpolls
    generalize (d.proceed _ _ _ _).value = r at hpolls hqueue
    generalize (d.poll ticket).value = s at hpolls hw
    cases hpolls with
    | finished =>
      exact .inl ((WaitingCall.mem_replace hd hw).resolve_left fun he => by cases he)
    | waiting queue task =>
      rcases WaitingCall.mem_replace hd hw with hnew | hold
      · cases hnew
        exact .inr ⟨rfl, hqueue rfl⟩
      · exact .inl hold

theorem Tracks.settled_pollEach (h : d.Tracks x) (hx : x.Lined capacity) (tickets : List Nat)
    (ha : ∀ w ∈ d.waiting,
      w.ticket ∈ tickets ∨ (∃ k, w.queue = some k) ∧ x.Asleep w.ticket) :
    (d.pollEach tickets).value.2.Settled := by
  induction tickets generalizing d x with
  | nil => exact h.settled fun w hw => (ha w hw).resolve_left (List.not_mem_nil)
  | cons ticket tickets ih =>
    refine ih (h.poll ticket none).1 (hx.run _) fun w hw => ?_
    rcases mem_waiting_poll h.nodup hw with ⟨hm, hne⟩ | ⟨he, hk⟩
    · refine (ha w hm).imp (fun ht => ?_) fun ⟨hk, hs⟩ => ⟨hk, h.asleep_poll hx (.inr hs)⟩
      exact (List.mem_cons.mp ht).resolve_left hne
    · exact .inr ⟨hk, h.asleep_poll hx (.inl he)⟩

/-- Polling each call that waits once settles a dispatcher. -/
theorem Tracks.settled_round (h : d.Tracks x) (hx : x.Lined capacity) : d.round.value.2.Settled :=
  h.settled_pollEach hx _ fun _ hw => .inl (List.mem_map_of_mem hw)

/-- The calls that wait on a queue are in its line. -/
theorem Tracks.lined (h : d.Tracks x) (hx : x.Lined capacity) {k : Nat} {q : Queue}
    (hq : d.board.queues[k]? = some q) :
    q.Lined capacity fun t => ∃ w ∈ d.waiting, w.ticket = t ∧ w.queue = some k := by
  refine (hx.queues k q (h.board_eq ▸ hq)).congr fun t => ⟨?_, ?_⟩
  · rintro ⟨g, hg, rfl⟩
    exact h.mem_of_held hg
  · rintro ⟨w, hw, rfl, hk⟩
    obtain ⟨g, hg, hgk, -⟩ := h.held_of_mem hw hk
    exact ⟨g, hg, hgk⟩

theorem Settled.asleep (hs : d.Settled) {w : WaitingCall} (hw : w ∈ d.waiting) {k : Nat}
    (hk : w.queue = some k) {q : Queue} (hq : d.board.queues[k]? = some q) : q.Asleep w.ticket := by
  obtain ⟨j, hj, hasleep⟩ := hs w hw
  cases hj.symm.trans hk
  exact hasleep q hq

/-- In a settled dispatcher no slot is reserved. -/
theorem Settled.granted_eq_nil (hs : d.Settled) {k : Nat} {q : Queue} {capacity : Nat}
    (hq : d.board.queues[k]? = some q)
    (hl : q.Lined capacity fun t => ∃ w ∈ d.waiting, w.ticket = t ∧ w.queue = some k) :
    q.granted = [] := by
  refine List.eq_nil_iff_forall_not_mem.mpr fun t ht => ?_
  obtain ⟨w, hw, rfl, hk⟩ := (hl.mem_iff t).mp (List.mem_append_left _ ht)
  exact (hs.asleep hw hk hq).2 ht

/-- `w` waits in the line of a full queue whose consumer listens, and in no other line. -/
structure Blocked (d : Dispatcher) (capacity : Nat) (w : WaitingCall) (k : Nat) (q : Queue) :
    Prop where
  waits : w.queue = some k
  queue_eq : d.board.queues[k]? = some q
  listening : q.consumer = .listening
  full : q.events.size = capacity
  in_line : w.ticket ∈ q.line
  only : ∀ j p, d.board.queues[j]? = some p → w.ticket ∈ p.granted ++ p.line → j = k

theorem Settled.exists_blocked (hs : d.Settled) (h : d.Tracks x) (hx : x.Lined capacity)
    {w : WaitingCall} (hw : w ∈ d.waiting) : ∃ k q, d.Blocked capacity w k q := by
  obtain ⟨k, hk, -⟩ := hs w hw
  obtain ⟨g, hg, he, -⟩ := h.held_of_mem hw hk
  have hlt := hx.held_lt _ g hg
  rw [h.board_eq, he] at hlt
  have hq : d.board.queues[k]? = some d.board.queues[k] := Array.getElem?_eq_getElem hlt
  have hl := h.lined hx hq
  have hgranted := hs.granted_eq_nil hq hl
  have hmem := (hl.mem_iff w.ticket).mpr ⟨w, hw, rfl, hk⟩
  rw [hgranted, List.nil_append] at hmem
  have hlistens := (hs.asleep hw hk hq).1
  have hfull := hl.full hlistens (List.ne_nil_of_mem hmem)
  rw [hgranted] at hfull
  refine ⟨k, _, hk, hq, hlistens, hfull, hmem, fun j p hp hm => ?_⟩
  obtain ⟨v, hv, ht, hj⟩ := ((h.lined hx hp).mem_iff _).mp hm
  have hfind := h.find?_of_mem hv
  rw [ht, h.find?_of_mem hw] at hfind
  cases hfind
  exact Option.some.inj (hj.symm.trans hk)

/-- To poll a call that is asleep changes nothing, however many steps it is allowed. -/
theorem Settled.poll_eq (hs : d.Settled) (h : d.Tracks x) {w : WaitingCall} (hw : w ∈ d.waiting)
    {k : Nat} (hk : w.queue = some k) {q : Queue} (hq : d.board.queues[k]? = some q)
    (limit : Option Nat) : (d.poll w.ticket limit).value = (none, d) := by
  obtain ⟨hl, hg⟩ := hs.asleep hw hk hq
  obtain ⟨g, -, -, hcall⟩ := h.held_of_mem hw hk
  have hretry : q.retry w.ticket g.call.event = (.waiting, q) := by
    rw [Queue.retry, if_neg fun hne => hne hl, if_neg hg]
  have hsame : d.board.queues.setIfInBounds k q = d.board.queues := by
    refine Array.ext_getElem? fun j => ?_
    rw [Switchboard.getElem?_set hq]
    split
    · next hj => rw [hj, hq]
    · rfl
  have hissue : (d.board.reissue w.ticket k g.call).value = (.waits k, d.board) := by
    have hsend : d.board.sendBy k (·.retry w.ticket g.call.event) = (.waiting, d.board) := by
      simp only [Switchboard.sendBy, hq, hretry, hsame]
    rw [Switchboard.reissue, hsend]
    rfl
  have hproceed (n : Nat) :
      (d.proceed w.ticket n w.queue w.task).value = (.waiting w.queue w.task, d) := by
    cases n with
    | zero => rfl
    | succ n =>
      simp only [proceed, step, hcall, hk, attempt, Logged.value_bind, hissue, Logged.value_pure]
  have hfind := h.find?_of_mem hw
  rw [poll, hfind]
  simp only [Logged.value_bind, hproceed, Logged.value_pure]
  rw [WaitingCall.replace_self hfind]

/-- A first attempt is over at once where the channel has no queue or the queue has a free slot. -/
theorem Settled.issue_answered (hs : d.Settled) (h : d.Tracks x) (hx : x.Lined capacity)
    (call : SinkCall)
    (hroom : ∀ k q, d.board.route? call.channel = some k → d.board.queues[k]? = some q →
      q.events.size < capacity) (ticket : Nat) :
    ∃ answer, (d.board.issue ticket call).value.1 = .answered answer := by
  rw [Switchboard.issue]
  cases hr : d.board.route? call.channel with
  | none => exact ⟨call.unrouted, rfl⟩
  | some k =>
    have hlt := hx.route_lt call.channel k (h.board_eq ▸ hr)
    rw [h.board_eq] at hlt
    have hq : d.board.queues[k]? = some d.board.queues[k] := Array.getElem?_eq_getElem hlt
    have hl := h.lined hx hq
    have hfree : 0 < d.board.queues[k].free := by
      have hlt := hroom k _ hr hq
      have hc := hl.capacity_eq
      rw [Queue.free, hs.granted_eq_nil hq hl, hc, List.length_nil]
      omega
    simp only [Logged.value_bind, Logged.value_pure, Switchboard.sendBy, hq, Queue.offer, hfree,
      if_true]
    split
    · exact ⟨call.consumerGone.value, rfl⟩
    · exact ⟨.accepted, rfl⟩

end Dispatcher

namespace Access

/-- An operation on a dispatcher whose locks are free is over at once, and leaves them free. -/
def AtOnce (d : Dispatcher) (op : Operation) : Prop :=
  ∃ result next, operate op ⟨d, {}⟩ = some (result, ⟨next, {}⟩) ∧
    ∀ ticket, result ≠ .started (.pending ticket)

theorem atOnce_of_value {d : Dispatcher} {op : Operation}
    (h : ∀ ticket, (d.operate op).value.1 ≠ .started (.pending ticket)) : AtOnce d op :=
  ⟨_, _, agrees_operate d op, h⟩

/-- A call of the host on the sink is over at once when its first attempt is answered. -/
theorem start_answered {d : Dispatcher} {task : Task} (hp : ∀ p, task ≠ .pass p) {call : SinkCall}
    (hc : task.call? = some call) {answer : Answer}
    (h : (d.board.issue d.nextTicket call).value.1 = .answered answer) (ticket : Nat) :
    (d.start task).value.1 ≠ .pending ticket := by
  let board := (d.board.issue d.nextTicket call).value.2
  have hissue : (d.board.issue d.nextTicket call).value = (.answered answer, board) :=
    Prod.ext h rfl
  have hstep : (d.step d.nextTicket none task).value =
      (Dispatcher.resume { d with board } task answer).value := by
    rw [Dispatcher.step, hc]
    simp only [Dispatcher.attempt, Logged.value_bind]
    rw [hissue]
  have hdone : ∃ result e,
      (d.proceed d.nextTicket task.stepsLeft none task).value = (.finished result, e) := by
    cases task with
    | pass p => exact absurd rfl (hp p)
    | push | endOfStream =>
      show ∃ result e, (d.proceed d.nextTicket 1 none _).value = (.finished result, e)
      rw [Dispatcher.proceed, Logged.value_bind, hstep]
      exact ⟨_, _, rfl⟩
  obtain ⟨result, e, hdone⟩ := hdone
  have henters := d.enters_start task none
  rw [Option.getD_none, hdone] at henters
  generalize (d.start task).value = s at henters ⊢
  cases henters
  intro he
  cases he

end Access

namespace Dispatcher

/-- In every run no lock is ever waited for, and all are free after each operation; calls of the
host and changes of the routes are over at once. One round of polls settles the calls that wait. In
a settled state each of them is blocked by one full queue, and a push or an end of stream on a
channel without a full queue is over at once. -/
theorem only_full_queues_block (config : Config) (capacity : Nat) (ops : List Operation) :
    let r := ((fresh config capacity).operateAll ops).value
    Access.operateAll ops ⟨fresh config capacity, {}⟩ = some (r.1, ⟨r.2, {}⟩) ∧
      (∀ call, Access.AtOnce r.2 (.call call)) ∧
      (∀ c, Access.AtOnce r.2 (.attach c) ∧ Access.AtOnce r.2 (.detach c)) ∧
      r.2.round.value.2.Settled ∧
      (r.2.Settled →
        (∀ w ∈ r.2.waiting, (∃ k q, r.2.Blocked (max 1 capacity) w k q) ∧
          ∀ limit, (r.2.poll w.ticket limit).value = (none, r.2)) ∧
        ∀ c, (∀ k (q : Queue), r.2.board.route? c = some k → r.2.board.queues[k]? = some q →
            q.events.size < max 1 capacity) →
          (∀ u, Access.AtOnce r.2 (.push c u)) ∧ Access.AtOnce r.2 (.sendEnd c)) := by
  intro r
  obtain ⟨h, -⟩ := (tracks_fresh config capacity).operateAll ops
  have hx := (Exchange.lined_ofCapacity capacity).run ((fresh config capacity).actsAll ops)
  have hdone {op : Operation}
      (hop : ∀ ticket, (r.2.operate op).value.1 ≠ .started (.pending ticket)) :
      Access.AtOnce r.2 op := Access.atOnce_of_value hop
  refine ⟨Access.agrees_operateAll _ ops, fun call => hdone fun _ => nofun,
    fun c => ⟨hdone fun _ => nofun, hdone fun _ => nofun⟩, h.settled_round hx,
    fun hs => ⟨fun w hw => ?_, fun c hroom => ?_⟩⟩
  · obtain ⟨k, q, hq⟩ := hs.exists_blocked h hx hw
    exact ⟨⟨k, q, hq⟩, hs.poll_eq h hw hq.waits hq.queue_eq⟩
  · have answered (task : Task) (hp : ∀ p, task ≠ .pass p) {call : SinkCall}
        (ht : task.call? = some call) (hc : call.channel = c) (ticket : Nat) :
        (r.2.start task).value.1 ≠ .pending ticket := by
      obtain ⟨answer, ha⟩ := hs.issue_answered h hx call (hc ▸ hroom) r.2.nextTicket
      exact Access.start_answered hp ht ha ticket
    have started {s : Started} (hne : ∀ ticket, s ≠ .pending ticket) (ticket : Nat) :
        OperationResult.started s ≠ .started (.pending ticket) :=
      fun he => hne ticket (OperationResult.started.inj he)
    exact ⟨fun u => hdone (started (answered (.push c u) nofun rfl rfl)),
      hdone (started (answered (.endOfStream c) nofun rfl rfl))⟩

/-- A pass waits on the queue of one channel, and a push on a queue that another has replaced. -/
theorem only_full_queues_block_replaced :
    let frame (pts : UInt64) (isKeyframe : Bool) : AccessUnit :=
      { pts, payload := ⟨#[1]⟩, isKeyframe }
    let ops : List Operation := [.call (.request (some ⟨0⟩)), .call (.request (some ⟨1⟩)),
      .attach ⟨0⟩, .attach ⟨1⟩, .call (.arriveAll [frame 0 true, frame 1 false, frame 2 true]),
      .endStream, .push ⟨1⟩ (frame 10 true), .push ⟨1⟩ (frame 11 false), .attach ⟨1⟩]
    let d := ((fresh {} 0).operateAll ops).value.2
    d.waiting.map (fun w => (w.ticket, w.queue)) = [(0, some 0), (1, some 1)] ∧
      (∀ w ∈ d.waiting, ∃ k q, d.Blocked 1 w k q) ∧
      Access.AtOnce d (.push ⟨1⟩ (frame 12 false)) ∧ Access.AtOnce d (.sendEnd ⟨2⟩) := by
  intro frame ops d
  obtain ⟨-, -, -, -, hsettledOnly⟩ := only_full_queues_block {} 0 ops
  have hsettled : d.Settled := by decide +kernel
  have hroute : d.board.route? ⟨1⟩ = some 2 := by decide +kernel
  have hnone : d.board.route? ⟨2⟩ = none := by decide +kernel
  have hsize : d.board.queues[2]?.map (·.events.size) = some 0 := by decide +kernel
  have hwaiting : d.waiting.map (fun w => (w.ticket, w.queue)) = [(0, some 0), (1, some 1)] := by
    decide +kernel
  -- from here on only these facts about the state matter, and not how it came about
  obtain ⟨e, he⟩ : ∃ e, ((fresh {} 0).operateAll ops).value.2 = e := ⟨_, rfl⟩
  have hd : d = e := he
  rw [he] at hsettledOnly
  rw [hd] at hsettled hroute hnone hsize hwaiting ⊢
  obtain ⟨hblocked, hroom⟩ := hsettledOnly hsettled
  refine ⟨hwaiting, fun w hw => (hblocked w hw).1, ?_, ?_⟩
  · refine (hroom ⟨1⟩ fun k q hk hq => ?_).1 _
    cases hroute.symm.trans hk
    rw [hq] at hsize
    have hempty : q.events.size = 0 := Option.some.inj hsize
    rw [hempty]
    exact Nat.one_pos
  · exact (hroom ⟨2⟩ fun k q hk hq => by cases hnone.symm.trans hk).2

end Dispatcher

end StreamFanout
