import Mathlib.Data.List.Nodup
import StreamFanout.Proofs.Delivery.Lookups

/-!
The lines before the queues of an exchange. A call that waits stands in the line of one queue, or
has a slot reserved there; slots are filled, reserved or free, and while a call stands in the line
of a consumer that listens, none is free.
-/
namespace StreamFanout

namespace Queue

/-- `senders` wait at the queue, each of them once, and no slot is free while one of them stands in
line and the consumer listens. -/
structure Lined (q : Queue) (capacity : Nat) (senders : Nat → Prop) : Prop where
  capacity_eq : q.capacity = capacity
  nodup : (q.granted ++ q.line).Nodup
  mem_iff : ∀ t, t ∈ q.granted ++ q.line ↔ senders t
  room : q.events.size + q.granted.length ≤ capacity
  full : q.consumer = .listening → q.line ≠ [] → q.events.size + q.granted.length = capacity

variable {q : Queue} {capacity ticket : Nat} {senders : Nat → Prop} {e : ConsumerEvent}

theorem lined_ofCapacity (capacity : Nat) :
    (ofCapacity capacity).Lined capacity fun _ => False where
  capacity_eq := rfl
  nodup := List.nodup_nil
  mem_iff t := List.mem_nil_iff t
  room := Nat.zero_le capacity
  full _ hl := absurd rfl hl

theorem Lined.congr {senders' : Nat → Prop} (h : q.Lined capacity senders)
    (hs : ∀ t, senders t ↔ senders' t) : q.Lined capacity senders' :=
  { h with mem_iff := fun t => (h.mem_iff t).trans (hs t) }

/-- A slot has become free; the head of the line takes it. -/
theorem Lined.grant (hc : q.capacity = capacity) (hn : (q.granted ++ q.line).Nodup)
    (hm : ∀ t, t ∈ q.granted ++ q.line ↔ senders t)
    (hr : q.events.size + q.granted.length + 1 ≤ capacity)
    (hf : q.consumer = .listening → q.line ≠ [] →
      q.events.size + q.granted.length + 1 = capacity) : q.grant.Lined capacity senders := by
  unfold Queue.grant
  split
  · next hline =>
    exact ⟨hc, hn, hm, Nat.le_of_succ_le hr, fun _ hne => absurd hline hne⟩
  · next t line hline =>
    have hsame : q.granted ++ [t] ++ line = q.granted ++ q.line := by
      rw [hline, List.append_assoc, List.singleton_append]
    have hlen : (q.granted ++ [t]).length = q.granted.length + 1 := List.length_append
    have hne : q.line ≠ [] := hline ▸ List.cons_ne_nil t line
    refine ⟨hc, hsame ▸ hn, fun s => hsame ▸ hm s, ?_, fun hl _ => ?_⟩
    · show q.events.size + (q.granted ++ [t]).length ≤ capacity
      rw [hlen]
      exact hr
    · show q.events.size + (q.granted ++ [t]).length = capacity
      rw [hlen]
      exact hf hl hne

/-- A first attempt is over at once, or its sender stands at the end of the line. -/
theorem Lined.offer (h : q.Lined capacity senders) (ht : ¬senders ticket) (e : ConsumerEvent) :
    (q.offer ticket e).2.Lined capacity fun t =>
      senders t ∨ (q.offer ticket e).1 = .waiting ∧ t = ticket := by
  unfold Queue.offer
  split
  · exact h.congr fun t => by simp
  · next hl =>
    have hl : q.consumer = .listening := Classical.not_not.mp hl
    split
    · next hfree =>
      have hfree : q.events.size + q.granted.length < capacity := by
        have hc := h.capacity_eq
        simp only [free] at hfree
        omega
      have hempty : q.line = [] :=
        Classical.not_not.mp fun hne => Nat.ne_of_lt hfree (h.full hl hne)
      refine ⟨h.capacity_eq, h.nodup, fun t => ?_, ?_, fun _ hne => absurd hempty hne⟩
      · exact (h.mem_iff t).trans (by simp)
      · show q.events.size + 1 + q.granted.length ≤ capacity
        omega
    · next hfree =>
      refine ⟨h.capacity_eq, ?_, fun t => ?_, h.room, fun _ _ => ?_⟩
      · show (q.granted ++ (q.line ++ [ticket])).Nodup
        rw [← List.append_assoc, List.nodup_append]
        refine ⟨h.nodup, List.nodup_singleton _, fun s hs s' hs' he => ht ?_⟩
        rw [← List.mem_singleton.mp hs', ← he]
        exact (h.mem_iff s).mp hs
      · show t ∈ q.granted ++ (q.line ++ [ticket]) ↔ _
        rw [← List.append_assoc, List.mem_append, h.mem_iff, List.mem_singleton]
        simp
      · have hc := h.capacity_eq
        have hr := h.room
        simp only [free] at hfree
        show q.events.size + q.granted.length = capacity
        omega

theorem mem_erase_senders (h : q.Lined capacity senders) {xs : List Nat}
    (hx : xs = (q.granted ++ q.line).erase ticket) :
    xs.Nodup ∧ ∀ t, t ∈ xs ↔ senders t ∧ t ≠ ticket := by
  subst hx
  refine ⟨h.nodup.erase ticket, fun t => ?_⟩
  rw [h.nodup.mem_erase_iff, h.mem_iff, and_comm]

/-- A sender leaves a queue on which it has no reserved slot. -/
theorem Lined.leave (h : q.Lined capacity senders) (ht : ticket ∉ q.granted) :
    Lined { q with line := q.line.erase ticket } capacity fun t => senders t ∧ t ≠ ticket := by
  have herase : q.granted ++ q.line.erase ticket = (q.granted ++ q.line).erase ticket :=
    (List.erase_append_right _ ht).symm
  obtain ⟨hn, hm⟩ := mem_erase_senders h herase
  refine ⟨h.capacity_eq, hn, hm, h.room, fun hl hne => h.full hl fun hnil => hne ?_⟩
  show q.line.erase ticket = []
  rw [hnil]
  rfl

/-- A send that has waited goes on: it is over, or it stays where it is. -/
theorem Lined.retry (h : q.Lined capacity senders) (e : ConsumerEvent) :
    (q.retry ticket e).2.Lined capacity fun t =>
      senders t ∧ ((q.retry ticket e).1 = .waiting ∨ t ≠ ticket) := by
  have reserved (hg : ticket ∈ q.granted) : q.granted.erase ticket ++ q.line =
      (q.granted ++ q.line).erase ticket := (List.erase_append_left _ hg).symm
  unfold Queue.retry
  split
  · next hl =>
    have herase : q.granted.erase ticket ++ q.line.erase ticket =
        (q.granted ++ q.line).erase ticket := by
      by_cases hg : ticket ∈ q.granted
      · have hline : ticket ∉ q.line := List.disjoint_of_nodup_append h.nodup hg
        rw [List.erase_of_not_mem hline, reserved hg]
      · rw [List.erase_of_not_mem hg, List.erase_append_right _ hg]
    obtain ⟨hn, hm⟩ := mem_erase_senders h herase
    refine ⟨h.capacity_eq, hn, fun t => (hm t).trans (by simp), ?_, fun hl' => absurd hl' hl⟩
    have hle : (q.granted.erase ticket).length ≤ q.granted.length := List.length_erase_le
    have hr := h.room
    show q.events.size + (q.granted.erase ticket).length ≤ capacity
    omega
  · split
    · next hg =>
      obtain ⟨hn, hm⟩ := mem_erase_senders h (reserved hg)
      have hlen : (q.granted.erase ticket).length + 1 = q.granted.length := by
        rw [List.length_erase_of_mem hg]
        have hpos := List.length_pos_of_mem hg
        omega
      refine ⟨h.capacity_eq, hn, fun t => (hm t).trans (by simp), ?_, fun hl hne => ?_⟩
      · have hr := h.room
        show q.events.size + 1 + (q.granted.erase ticket).length ≤ capacity
        omega
      · have hf := h.full hl hne
        show q.events.size + 1 + (q.granted.erase ticket).length = capacity
        omega
    · exact h.congr fun t => by simp

/-- A send that is given up leaves its place in line, or its slot to the next. -/
theorem Lined.forget (h : q.Lined capacity senders) :
    (q.forget ticket).Lined capacity fun t => senders t ∧ t ≠ ticket := by
  unfold Queue.forget
  split
  · next hg =>
    obtain ⟨hn, hm⟩ := mem_erase_senders h (List.erase_append_left _ hg).symm
    have hlen : (q.granted.erase ticket).length + 1 = q.granted.length := by
      rw [List.length_erase_of_mem hg]
      have hpos := List.length_pos_of_mem hg
      omega
    refine Lined.grant h.capacity_eq hn hm ?_ fun hl hne => ?_
    · have hr := h.room
      show q.events.size + (q.granted.erase ticket).length + 1 ≤ capacity
      omega
    · have hf := h.full hl hne
      show q.events.size + (q.granted.erase ticket).length + 1 = capacity
      omega
  · next hg => exact h.leave hg

/-- A slot that a consumer empties goes to the head of the line. -/
theorem Lined.receive (h : q.Lined capacity senders) (isAttached : Bool) :
    (q.receive isAttached).2.Lined capacity senders := by
  unfold Queue.receive
  split
  · exact h
  · next e events hpop _ =>
    have hsize : events.size + 1 = q.events.size := by
      rw [← Fifo.length_toList q.events, Fifo.toList_of_pop? hpop, List.length_cons,
        Fifo.length_toList]
    refine Lined.grant h.capacity_eq h.nodup h.mem_iff ?_ fun hl hne => ?_
    · have hr := h.room
      show events.size + q.granted.length + 1 ≤ capacity
      omega
    · have hf := h.full hl hne
      show events.size + q.granted.length + 1 = capacity
      omega
  · exact h
  · split <;> exact h

theorem Lined.close (h : q.Lined capacity senders) : q.close.Lined capacity senders := by
  unfold Queue.close
  split
  · exact { h with full := fun hl => by cases hl }
  · exact h

theorem Lined.drop (h : q.Lined capacity senders) : q.drop.Lined capacity senders where
  capacity_eq := h.capacity_eq
  nodup := h.nodup
  mem_iff := h.mem_iff
  room := by
    have hr := h.room
    show 0 + q.granted.length ≤ capacity
    omega
  full hl := by cases hl

end Queue

namespace Exchange

variable {x : Exchange} {capacity ticket : Nat} {h : Held}

def Waits (x : Exchange) (k ticket : Nat) : Prop :=
  ∃ h, x.held ticket = some h ∧ h.queue = k

/-- Each queue has the calls that wait on it in its line or among its reserved slots. -/
structure Lined (x : Exchange) (capacity : Nat) : Prop where
  capacity_eq : x.board.capacity = capacity
  route_lt : ∀ c k, x.board.route? c = some k → k < x.board.queues.size
  held_lt : ∀ t h, x.held t = some h → h.queue < x.board.queues.size
  queues : ∀ k (q : Queue), x.board.queues[k]? = some q → q.Lined capacity (x.Waits k)

theorem lined_ofCapacity (capacity : Nat) : (ofCapacity capacity).Lined (max 1 capacity) where
  capacity_eq := rfl
  route_lt c k hk := by cases hk
  held_lt t h hh := by cases hh
  queues k q hq := by simp [ofCapacity, Switchboard.ofCapacity] at hq

theorem Lined.route_of_routes (hx : x.Lined capacity) {b : Switchboard}
    (hr : b.routes = x.board.routes) (hs : b.queues.size = x.board.queues.size) :
    ∀ c k, b.route? c = some k → k < b.queues.size := by
  rw [Switchboard.route?_congr hr, hs]
  exact hx.route_lt

/-- A queue changes on which the same calls wait as before. -/
theorem Lined.modify (hx : x.Lined capacity) (k : Nat) {f : Queue → Queue}
    (hf : ∀ q senders, q.Lined capacity senders → (f q).Lined capacity senders) :
    Lined { x with board := x.board.modify k f } capacity where
  capacity_eq := hx.capacity_eq
  route_lt := hx.route_of_routes rfl (Switchboard.size_modify _ _ _)
  held_lt t h hh := (Switchboard.size_modify _ _ _).symm ▸ hx.held_lt t h hh
  queues j q hq := by
    have hq : (x.board.modify k f).queues[j]? = some q := hq
    rw [Switchboard.getElem?_modify] at hq
    split at hq
    · obtain ⟨p, hp, rfl⟩ := Option.map_eq_some_iff.mp hq
      exact hf p _ (hx.queues j p hp)
    · exact hx.queues j q hq

/-- Which calls wait where after one call was held on, or let go. -/
theorem waits_of_update {y : Exchange} {p : Prop} [Decidable p]
    (hy : y.held = Function.update x.held ticket (if p then some h else none)) (k t : Nat) :
    y.Waits k t ↔ x.Waits k t ∧ t ≠ ticket ∨ k = h.queue ∧ p ∧ t = ticket := by
  unfold Waits
  rw [hy]
  by_cases ht : t = ticket
  · subst ht
    rw [Function.update_self]
    by_cases hp : p
    · simp [hp, eq_comm]
    · simp [hp]
  · rw [Function.update_of_ne ht]
    simp [ht]

/-- A call stands at the queue `k` after an attempt to send its event, or is over; no other call
comes or goes. -/
theorem Lined.attempt (hx : x.Lined capacity) {k : Nat} (hk : k < x.board.queues.size)
    (hh : ∀ j, j ≠ k → ¬x.Waits j ticket) (hq : h.queue = k) {y : Exchange}
    {send : Queue → SendResult × Queue}
    (hheld : y.held = Function.update x.held ticket
      (if (x.board.sendBy k send).1 = .waiting then some h else none))
    (hboard : y.board = (x.board.sendBy k send).2)
    (hsend : ∀ q : Queue, q.Lined capacity (x.Waits k) → (send q).2.Lined capacity fun t =>
      x.Waits k t ∧ t ≠ ticket ∨ (send q).1 = .waiting ∧ t = ticket) : y.Lined capacity := by
  have hold (j t : Nat) : y.Waits j t ↔ x.Waits j t ∧ t ≠ ticket ∨
      j = k ∧ (x.board.sendBy k send).1 = .waiting ∧ t = ticket :=
    hq ▸ waits_of_update hheld j t
  have hapart {j : Nat} (hj : j ≠ k) (t : Nat) : x.Waits j t ↔ y.Waits j t := by
    rw [hold]
    constructor
    · exact fun hw => .inl ⟨hw, fun ht => hh j hj (ht ▸ hw)⟩
    · rintro (⟨hw, -⟩ | ⟨hjk, -⟩)
      · exact hw
      · exact absurd hjk hj
  have hqk : x.board.queues[k]? = some x.board.queues[k] := Array.getElem?_eq_getElem hk
  have hsent : x.board.sendBy k send = ((send x.board.queues[k]).1,
      { x.board with queues := x.board.queues.setIfInBounds k (send x.board.queues[k]).2 }) := by
    rw [Switchboard.sendBy, hqk]
  constructor
  · rw [hboard, hsent]
    exact hx.capacity_eq
  · rw [hboard]
    exact hx.route_of_routes (Switchboard.routes_sendBy _ _ _) (Switchboard.size_sendBy _ _ _)
  · intro t g hg
    rw [hboard, Switchboard.size_sendBy]
    rcases (hold g.queue t).mp ⟨g, hg, rfl⟩ with ⟨⟨g', hg', he⟩, -⟩ | ⟨he, -⟩
    · exact he ▸ hx.held_lt t g' hg'
    · exact he ▸ hk
  · intro j q hj
    rw [hboard, hsent] at hj
    have hj : (x.board.queues.setIfInBounds k (send x.board.queues[k]).2)[j]? = some q := hj
    rw [Switchboard.getElem?_set hqk] at hj
    by_cases hjk : j = k
    · rw [if_pos hjk] at hj
      cases hj
      refine (hsend _ (hx.queues k _ hqk)).congr fun t => ?_
      rw [hold, hsent]
      simp [hjk]
    · rw [if_neg hjk] at hj
      exact (hx.queues j q hj).congr (hapart hjk)

theorem held_conclude (x : Exchange) (ticket : Nat) (h : Held) (r : SendResult × Switchboard) :
    (x.conclude ticket h r).2.held =
      Function.update x.held ticket (if r.1 = .waiting then some h else none) := by
  obtain ⟨result, board⟩ := r
  cases result <;> rfl

theorem Lined.attach (hx : x.Lined capacity) (c : Channel) :
    Lined { x with board := (x.board.attach c).2 } capacity := by
  have hsize := x.board.size_attach c
  constructor
  · exact hx.capacity_eq
  · intro d k hk
    show k < (x.board.attach c).2.queues.size
    have hk : (x.board.attach c).2.route? d = some k := hk
    rw [hsize]
    rw [Switchboard.route?_attach] at hk
    split at hk
    · cases hk
      exact Nat.lt_succ_self _
    · exact Nat.lt_succ_of_lt (hx.route_lt d k hk)
  · exact fun t h hh => hsize.symm ▸ Nat.lt_succ_of_lt (hx.held_lt t h hh)
  · intro k q hq
    have hq : (x.board.attach c).2.queues[k]? = some q := hq
    rw [Switchboard.getElem?_attach] at hq
    split at hq
    · next hk =>
      cases hq
      rw [hx.capacity_eq]
      refine (Queue.lined_ofCapacity capacity).congr fun t => ⟨False.elim, ?_⟩
      rintro ⟨h, hh, rfl⟩
      exact Nat.ne_of_lt (hx.held_lt t h hh) hk
    · exact hx.queues k q hq

theorem Lined.detach (hx : x.Lined capacity) (c : Channel) :
    Lined { x with board := x.board.unroute c } capacity :=
  { hx with
    route_lt := fun d k hk => by
      have hk : (x.board.unroute c).route? d = some k := hk
      rw [Switchboard.route?_unroute] at hk
      split at hk
      · cases hk
      · exact hx.route_lt d k hk }

/-- The call under a ticket waits on its own queue only. -/
theorem not_waits_of_held (hh : x.held ticket = some h) {j : Nat} (hj : j ≠ h.queue) :
    ¬x.Waits j ticket := by
  rintro ⟨g, hg, he⟩
  cases hh.symm.trans hg
  exact hj he.symm

theorem Lined.act (hx : x.Lined capacity) (a : Act) : (x.act a).2.Lined capacity := by
  have ht := x.takes_act a
  generalize x.act a = r at ht
  cases ht with
  | attach c => exact hx.attach c
  | detach c => exact hx.detach c
  | busy | void => exact hx
  | unrouted t byHost call hh hr => exact { hx with }
  | call t byHost call k hh hr r hc =>
    have hfree (j : Nat) : ¬x.Waits j t := by
      rintro ⟨g, hg, -⟩
      cases hh.symm.trans hg
    subst hc
    refine hx.attempt (h := ⟨x.begun, k, byHost, call⟩) (hx.route_lt _ k hr)
      (fun j _ => hfree j) rfl ?_ (board_conclude _ _ _ _) fun q hq => ?_
    · exact (held_conclude _ _ _ _).trans (Function.update_idem ..)
    · refine (hq.offer (hfree k) call.event).congr fun s => ?_
      constructor
      · rintro (hw | hw)
        · exact .inl ⟨hw, fun he => hfree k (he ▸ hw)⟩
        · exact .inr hw
      · exact Or.imp_left And.left
  | retry t h hh =>
    refine hx.attempt (hx.held_lt t h hh) (fun j => not_waits_of_held hh) rfl
      (held_conclude _ _ _ _) (board_conclude _ _ _ _) fun q hq => ?_
    refine (hq.retry h.call.event).congr fun s => ?_
    constructor
    · rintro ⟨hw, hr | hne⟩
      · by_cases hs : s = t
        · exact .inr ⟨hr, hs⟩
        · exact .inl ⟨hw, hs⟩
      · exact .inl ⟨hw, hne⟩
    · rintro (⟨hw, hne⟩ | ⟨hr, rfl⟩)
      · exact ⟨hw, .inr hne⟩
      · exact ⟨⟨h, hh, rfl⟩, .inl hr⟩
  | giveUp t h hh =>
    -- A call that is given up leaves its queue as a refused one does.
    have hsent : (x.board.sendBy h.queue fun q => (.refused, q.forget t)).1 ≠ .waiting := by
      unfold Switchboard.sendBy
      split <;> exact nofun
    refine hx.attempt (h := h) (hx.held_lt t h hh) (fun j => not_waits_of_held hh) rfl ?_
      (Switchboard.modify_eq_sendBy _ _ _) fun q hq => hq.forget.congr fun s => ?_
    · rw [if_neg hsent]
    · exact ⟨.inl, fun hs => hs.resolve_right fun hw => absurd hw.1 nofun⟩
  | receive queue =>
    rw [Switchboard.receive_eq_modify]
    exact hx.modify queue fun q senders hq => hq.receive _
  | close queue => exact hx.modify queue fun q senders hq => hq.close
  | drop queue => exact hx.modify queue fun q senders hq => hq.drop

end Exchange

end StreamFanout
