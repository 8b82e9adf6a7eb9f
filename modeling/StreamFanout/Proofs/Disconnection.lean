import Mathlib.Data.List.Perm.Subperm
import StreamFanout.Proofs.Delivery.Attachments
import StreamFanout.Proofs.Delivery.Drains

/-!
When a consumer finds its queue disconnected. As long as its channel leads to the queue nothing
disconnects it, whatever streams and passes end; once the channel has been attached again or
detached, the consumer first reads what is queued and what the calls that wait there have to put,
and then that the queue is disconnected.
-/
namespace StreamFanout

open scoped List

/-- A consumer that listens reads what is queued first; on an empty queue it reads whether an event
can still come. -/
theorem Queue.receive_of_listening {q : Queue} (hl : q.consumer = .listening) (isAttached : Bool) :
    (q.receive isAttached).1 = match q.events.toList with
      | e :: _ => .event e
      | [] => if isAttached || q.hasSenders then .empty else .disconnected := by
  unfold receive
  rw [hl]
  cases hp : q.events.pop? with
  | none => rw [Fifo.pop?_eq_none_iff.mp hp]
  | some r => rw [Fifo.toList_of_pop? hp]

namespace Dispatcher

variable {d : Dispatcher} {x : Exchange} {capacity k : Nat}

/-- The calls that wait on a queue and that none of some operations gives up. -/
def waitingOn (d : Dispatcher) (k : Nat) (later : List Operation) : List WaitingCall :=
  d.waiting.filter fun w => w.queue = some k ∧ .cancel w.ticket ∉ later

/-- What a consumer has to read: what is on its queue, and what the calls that wait there and are
not given up have to put. -/
def toRead (d : Dispatcher) (k : Nat) (later : List Operation) : List ConsumerEvent :=
  d.board.contents k ++ (d.waitingOn k later).filterMap (·.task.call?.map SinkCall.event)

theorem Tracks.pending_eq (h : d.Tracks x) (k : Nat) (later : List Operation) :
    x.pending k ((d.waitingOn k later).map WaitingCall.ticket) = d.toRead k later := by
  rw [Exchange.pending, toRead, h.board_eq, List.filterMap_map]
  congr 1
  refine List.filterMap_congr fun w hw => ?_
  obtain ⟨hw, hq⟩ := List.mem_filter.mp hw
  obtain ⟨g, hg, hk, hcall⟩ := h.held_of_mem hw (of_decide_eq_true hq).1
  simp only [Function.comp_apply, Exchange.toPut, hg, Option.bind_some, if_pos hk, hcall,
    Option.map_some]

theorem receive_eq (d : Dispatcher) {q : Queue} (hq : d.board.queues[k]? = some q) :
    (d.receive k).1 = (q.receive (d.board.isAttached k)).1 := by
  simp only [receive, Switchboard.receive, hq]

/-- A consumer whose end nobody closes or drops listens on. -/
theorem Tracks.consumer?_operateAll (h : d.Tracks x) (hl : d.board.consumer? k = some .listening)
    {ops : List Operation} (hclose : .close k ∉ ops) (hdrop : .drop k ∉ ops) :
    (d.operateAll ops).value.2.board.consumer? k = some .listening := by
  obtain ⟨htracks, -⟩ := h.operateAll ops
  have hcloses : .close k ∉ d.actsAll ops := mt (mem_actsAll_iff rfl).mp hclose
  have hdrops : .drop k ∉ d.actsAll ops := mt (mem_actsAll_iff rfl).mp hdrop
  rw [← htracks.board_eq]
  exact x.consumer?_run (h.board_eq ▸ hl) hcloses hdrops

theorem receive_of_isAttached (hl : d.board.consumer? k = some .listening)
    (ha : d.board.isAttached k) : (d.receive k).1 ≠ .disconnected := by
  obtain ⟨q, hq, hl⟩ := Option.map_eq_some_iff.mp hl
  rw [d.receive_eq hq, Queue.receive_of_listening hl, ha]
  cases q.events.toList with
  | nil => exact nofun
  | cons e es => exact nofun

theorem receive_of_contents_eq_cons (hl : d.board.consumer? k = some .listening)
    {e : ConsumerEvent} {es : List ConsumerEvent} (he : d.board.contents k = e :: es) :
    (d.receive k).1 = .event e := by
  obtain ⟨q, hq, hl⟩ := Option.map_eq_some_iff.mp hl
  rw [d.receive_eq hq, Queue.receive_of_listening hl, ← Switchboard.contents_of_queue hq, he]

/-- In a settled dispatcher no call waits on an empty queue, so it matters only whether the queue is
attached. -/
theorem Settled.receive_of_contents_eq_nil (hs : d.Settled) (h : d.Tracks x)
    (hx : x.Lined capacity) (hc : 0 < capacity) (hl : d.board.consumer? k = some .listening)
    (he : d.board.contents k = []) :
    (d.receive k).1 = if d.board.isAttached k then .empty else .disconnected := by
  obtain ⟨q, hq, hl⟩ := Option.map_eq_some_iff.mp hl
  have hempty : q.events.toList = [] := (Switchboard.contents_of_queue hq).symm.trans he
  have hlined := h.lined hx hq
  have hgranted := hs.granted_eq_nil hq hlined
  have hline : q.line = [] := by
    by_contra hne
    have hfull := hlined.full hl hne
    rw [← Fifo.length_toList, hempty, hgranted] at hfull
    exact Nat.ne_of_lt hc hfull
  have hsenders : q.hasSenders = false := by
    rw [Queue.hasSenders, hline, hgranted]
    rfl
  rw [d.receive_eq hq, Queue.receive_of_listening hl, hempty, hsenders, Bool.or_false]

/-- On a queue that is disconnected nothing is pending. -/
theorem Tracks.pending_of_disconnected (h : d.Tracks x) (hx : x.Lined capacity)
    (hl : d.board.consumer? k = some .listening) (hd : (d.receive k).1 = .disconnected)
    (tickets : List Nat) : x.pending k tickets = [] := by
  obtain ⟨q, hq, hl⟩ := Option.map_eq_some_iff.mp hl
  rw [d.receive_eq hq, Queue.receive_of_listening hl] at hd
  have hcontents := Switchboard.contents_of_queue hq
  cases he : q.events.toList with
  | cons e es =>
    rw [he] at hd
    cases hd
  | nil =>
    rw [he] at hd
    simp only [ite_eq_right_iff, reduceCtorEq, imp_false, Bool.or_eq_true, not_or] at hd
    have hsenders : q.line = [] ∧ q.granted = [] := by
      have hs := hd.2
      simpa [Queue.hasSenders] using hs
    rw [Exchange.pending, h.board_eq, hcontents, he, List.nil_append]
    refine List.filterMap_eq_nil_iff.mpr fun t _ => ?_
    -- a call that had something to put here would stand in line or have a slot reserved
    cases hheld : x.held t with
    | none => rw [Exchange.toPut, hheld]; rfl
    | some g =>
      rw [Exchange.toPut, hheld, Option.bind_some, if_neg]
      intro hqueue
      have hmem := ((hx.queues k q (h.board_eq ▸ hq)).mem_iff t).mpr ⟨g, hheld, hqueue⟩
      rw [hsenders.1, hsenders.2] at hmem
      exact List.not_mem_nil hmem

/-- A consumer that finds its queue disconnected has read all that it ever had to. -/
theorem Tracks.read_of_disconnected (h : d.Tracks x) (hx : x.Lined capacity)
    (hl : d.board.consumer? k = some .listening) {later : List Operation}
    (hclose : .close k ∉ later) (hdrop : .drop k ∉ later) :
    let r := (d.operateAll later).value
    (r.2.receive k).1 = .disconnected → d.toRead k later <+~ received k later r.1 := by
  intro r hd
  have hcloses : .close k ∉ d.actsAll later := mt (mem_actsAll_iff rfl).mp hclose
  have hdrops : .drop k ∉ d.actsAll later := mt (mem_actsAll_iff rfl).mp hdrop
  have hgiveUps : ∀ t ∈ (d.waitingOn k later).map WaitingCall.ticket,
      .giveUp t ∉ d.actsAll later := by
    intro t ht
    obtain ⟨w, hw, rfl⟩ := List.mem_map.mp ht
    exact mt (mem_actsAll_iff rfl).mp (of_decide_eq_true (List.mem_filter.mp hw).2).2
  obtain ⟨htracks, -, hreads⟩ := h.operateAll later
  have hnodup : ((d.waitingOn k later).map WaitingCall.ticket).Nodup :=
    h.nodup.sublist (List.filter_sublist.map _)
  have hrun := Exchange.pending_run (h.board_eq ▸ hl) hnodup hcloses hdrops hgiveUps
  have hend := h.consumer?_operateAll hl hclose hdrop
  rw [htracks.pending_of_disconnected (hx.run _) hend hd, List.append_nil, hreads,
    h.pending_eq] at hrun
  exact hrun

/-- A queue that is not attached any more gives a drain all that its consumer has to read, and then
is disconnected. -/
theorem Tracks.drain_of_not_isAttached (h : d.Tracks x) (hx : x.Lined capacity) (hc : 0 < capacity)
    (hl : d.board.consumer? k = some .listening) (ha : ¬d.board.isAttached k) (hs : d.Settled) :
    ∃ es, (d.drain k).value.readings = es.map .event ++ [.disconnected] ∧ d.toRead k [] <+~ es := by
  obtain ⟨ops, hops, hreadings, hsettled, hlast⟩ := d.exists_drain_eq k x h hx hs
  have not_mem {op : Operation} (hne : op ≠ .receive k) (hpoll : ∀ ticket, op ≠ .poll ticket) :
      op ∉ ops := fun hm => (hops op hm).elim hne fun ⟨ticket, he⟩ => hpoll ticket he
  have hclose : .close k ∉ ops := not_mem nofun nofun
  have hdrop : .drop k ∉ ops := not_mem nofun nofun
  obtain ⟨htracks, -, -⟩ := h.operateAll ops
  have hend := h.consumer?_operateAll hl hclose hdrop
  have hstill : ¬(d.operateAll ops).value.2.board.isAttached k := by
    rw [← htracks.board_eq]
    intro hr
    obtain ⟨c, hr⟩ := Switchboard.isAttached_iff.mp hr
    have hlt : k < x.board.queues.size := h.board_eq ▸ Switchboard.lt_of_consumer? hl
    have hold := (Exchange.mem_routes_run hr hlt).1
    exact ha (Switchboard.isAttached_iff.mpr ⟨c, h.board_eq ▸ hold⟩)
  have hdisconnected : ((d.operateAll ops).value.2.receive k).1 = .disconnected := by
    cases he : (d.operateAll ops).value.2.board.contents k with
    | nil => rw [hsettled.receive_of_contents_eq_nil htracks (hx.run _) hc hend he, if_neg hstill]
    | cons e es => exact absurd (receive_of_contents_eq_cons hend he) (hlast e)
  rw [hdisconnected] at hreadings
  have hread := h.read_of_disconnected hx hl hclose hdrop hdisconnected
  refine ⟨_, hreadings, ?_⟩
  have hnone : d.waitingOn k [] = d.waitingOn k ops := by
    refine List.filter_congr fun w _ => ?_
    have hcancel : .cancel w.ticket ∉ ops := not_mem nofun nofun
    simp [hcancel]
  rw [toRead, hnone]
  exact hread

/-- A new queue whose consumer listens on is attached until its channel is attached again or
detached. -/
theorem Tracks.attached (h : d.Tracks x) (hx : x.Lined capacity) (hn : x.Numbered) (c : Channel)
    {after : List Operation} (hclose : .close (d.attach c).1 ∉ after)
    (hdrop : .drop (d.attach c).1 ∉ after) :
    let k := (d.attach c).1
    let e := ((d.attach c).2.operateAll after).value.2
    ∃ y, e.Tracks y ∧ y.Lined capacity ∧ e.board.consumer? k = some .listening ∧
      (e.board.route? c = some k ↔ .attach c ∉ after ∧ .detach c ∉ after) ∧
      (e.board.isAttached k ↔ e.board.route? c = some k) := by
  intro k e
  have hk : k = x.board.queues.size := congrArg (·.queues.size) h.board_eq.symm
  have hattach : (d.attach c).2.Tracks (x.act (.attach c)).2 := (h.operate (.attach c)).1
  obtain ⟨htracks, -⟩ := hattach.operateAll after
  have hnew : (d.attach c).2.board.consumer? k = some .listening := by
    show ((d.board.attach c).2.queues[k]?).map Queue.consumer = _
    rw [Switchboard.getElem?_attach, if_pos (show k = d.board.queues.size from rfl)]
    rfl
  have hroutes := Exchange.attached_run hn c ((d.attach c).2.actsAll after)
  rw [htracks.board_eq, ← hk,
    mem_actsAll_iff (show (Operation.attach c).act? = some (.attach c) from rfl),
    mem_actsAll_iff (show (Operation.detach c).act? = some (.detach c) from rfl)] at hroutes
  exact ⟨_, htracks, (hx.act _).run _, hattach.consumer?_operateAll hnew hclose hdrop, hroutes⟩

/-- A consumer whose end is neither closed nor dropped. It is attached until its channel is attached
again or detached, and as long as it is attached it never finds its queue disconnected, settled or
not. In a settled state it finds an empty queue disconnected exactly if it is not attached any more.
Whenever it finds its queue disconnected, it has read all that was queued or that waited there
before, but for what was given up; and a queue that is not attached any more can be drained to this
point. -/
theorem disconnected_iff_not_attached (config : Config) (capacity : Nat) (c : Channel)
    (before after : List Operation) :
    let start := ((fresh config capacity).operateAll before).value.2
    let k := (start.attach c).1
    let d := ((fresh config capacity).operateAll (before ++ .attach c :: after)).value.2
    .close k ∉ after → .drop k ∉ after →
      (d.board.route? c = some k ↔ .attach c ∉ after ∧ .detach c ∉ after) ∧
      (d.board.route? c = some k → (d.receive k).1 ≠ .disconnected) ∧
      (d.Settled → d.board.contents k = [] →
        ((d.receive k).1 = .disconnected ↔ d.board.route? c ≠ some k)) ∧
      (∀ later, .close k ∉ later → .drop k ∉ later →
        let r := (d.operateAll later).value
        (r.2.receive k).1 = .disconnected → d.toRead k later <+~ received k later r.1) ∧
      (d.Settled → d.board.route? c ≠ some k →
        ∃ es, (d.drain k).value.readings = es.map .event ++ [.disconnected] ∧
          d.toRead k [] <+~ es) := by
  intro start k d hclose hdrop
  obtain ⟨hstart, -⟩ := (tracks_fresh config capacity).operateAll before
  have hlined := (Exchange.lined_ofCapacity capacity).run ((fresh config capacity).actsAll before)
  have hnumbered : (Exchange.ofCapacity capacity).Numbered :=
    fun _ _ hr => absurd hr List.not_mem_nil
  obtain ⟨x, h, hx, hl, hroute, hattached⟩ :=
    hstart.attached hlined (hnumbered.run _) c hclose hdrop
  have hd : d = ((start.attach c).2.operateAll after).value.2 := by
    show ((fresh config capacity).operateAll (before ++ .attach c :: after)).value.2 = _
    rw [operateAll_append]
    rfl
  rw [← hd] at h hl hroute hattached
  have hc : 0 < max 1 capacity := Nat.lt_of_lt_of_le Nat.one_pos (Nat.le_max_left 1 capacity)
  have hconnected (hr : d.board.route? c = some k) : (d.receive k).1 ≠ .disconnected :=
    receive_of_isAttached hl (hattached.mpr hr)
  refine ⟨hroute, hconnected, fun hs he => ⟨fun hd hr => hconnected hr hd, fun hr => ?_⟩,
    fun later hcloses hdrops => h.read_of_disconnected hx hl hcloses hdrops,
    fun hs hr => h.drain_of_not_isAttached hx hc hl (mt hattached.mp hr) hs⟩
  exact (hs.receive_of_contents_eq_nil h hx hc hl he).trans (if_neg (mt hattached.mp hr))

/-- The channel is attached again while a pass waits on its queue: the consumer of the old queue
still gets the unit at which the pass waits. -/
theorem disconnected_iff_not_attached_replaced :
    let frame (pts : UInt64) (isKeyframe : Bool) : AccessUnit :=
      { pts, payload := ⟨#[1]⟩, isKeyframe }
    let ops : List Operation := [.call (.request (some ⟨0⟩)), .attach ⟨0⟩,
      .call (.arriveAll [frame 0 true, frame 1 false, frame 2 false]), .endStream, .attach ⟨0⟩]
    let d := ((fresh {} 1).operateAll ops).value.2
    d.board.route? ⟨0⟩ ≠ some 0 ∧ ∃ es,
      (d.drain 0).value.readings = es.map .event ++ [.disconnected] ∧
        [.unit (frame 0 true).marked, .unit (frame 1 false)] <+~ es := by
  intro frame ops d
  have hsettled : d.Settled := by decide +kernel
  have hroute : d.board.route? ⟨0⟩ ≠ some 0 := by decide +kernel
  have hread : d.toRead 0 [] = [.unit (frame 0 true).marked, .unit (frame 1 false)] := by
    decide +kernel
  obtain ⟨-, -, -, -, hdrain⟩ := disconnected_iff_not_attached {} 1 ⟨0⟩
    [.call (.request (some ⟨0⟩))]
    [.call (.arriveAll [frame 0 true, frame 1 false, frame 2 false]), .endStream, .attach ⟨0⟩]
    (by decide +kernel) (by decide +kernel)
  rw [← hread]
  exact ⟨hroute, hdrain hsettled hroute⟩

end Dispatcher

end StreamFanout
