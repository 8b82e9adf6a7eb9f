import StreamFanout.Proofs.Delivery.Dedicated
import StreamFanout.Proofs.Delivery.Lookups
import StreamFanout.Proofs.Delivery.Streams

/-!
Channels that are left alone. While a channel is neither released nor attached again nor detached,
and the consumer of its queue goes on listening, it leads to this queue and no other channel does,
whatever becomes of the others.
-/
namespace StreamFanout

variable {c : Channel} {k : Nat}

/-- An operation that leaves the channel `c` and the consumer of its queue `k` alone. -/
def Operation.Spares (c : Channel) (k : Nat) : Operation → Prop
  | .call (.release d) | .attach d | .detach d => d ≠ c
  | .close j | .drop j => j ≠ k
  | _ => True

def Act.Spares (c : Channel) (k : Nat) : Act → Prop
  | .attach d | .detach d => d ≠ c
  | .close j | .drop j => j ≠ k
  | _ => True

theorem Act.Attempts.spares {a : Act} {ticket : Nat} (h : a.Attempts ticket) : a.Spares c k := by
  cases a with
  | call | retry => trivial
  | _ => cases h

namespace Exchange

theorem route?_act (x : Exchange) {a : Act} (ha : a ≠ .attach c ∧ a ≠ .detach c) :
    (x.act a).2.board.route? c = x.board.route? c := by
  have ht := x.takes_act a
  generalize x.act a = r at ht
  cases ht with
  | attach d =>
    exact (x.board.route?_attach d c).trans (if_neg fun he => ha.1 (congrArg Act.attach he.symm))
  | detach d =>
    exact (x.board.route?_unroute d c).trans (if_neg fun he => ha.2 (congrArg Act.detach he.symm))
  | call t byHost call j hh hr r hc =>
    subst hc
    rw [board_conclude]
    exact congrFun (Switchboard.route?_congr (Switchboard.routes_sendBy _ _ _)) c
  | retry t h hh =>
    rw [board_conclude]
    exact congrFun (Switchboard.route?_congr (Switchboard.routes_sendBy _ _ _)) c
  | receive j => exact congrFun (Switchboard.route?_congr (Switchboard.routes_receive _ _)) c
  | busy | void | unrouted | giveUp | close | drop => rfl

theorem route?_run (x : Exchange) {acts : List Act} (ha : .attach c ∉ acts)
    (hd : .detach c ∉ acts) : (x.run acts).2.board.route? c = x.board.route? c := by
  induction acts generalizing x with
  | nil => rfl
  | cons a acts ih =>
    obtain ⟨ha, hattach⟩ := List.ne_and_not_mem_of_not_mem_cons ha
    obtain ⟨hd, hdetach⟩ := List.ne_and_not_mem_of_not_mem_cons hd
    exact (ih (x.act a).2 hattach hdetach).trans (x.route?_act ⟨ha.symm, hd.symm⟩)

/-- A consumer's end that nobody closes or drops stays as it is. -/
theorem consumer?_run (x : Exchange) {acts : List Act} {e : ConsumerEnd}
    (hk : x.board.consumer? k = some e) (hc : .close k ∉ acts) (hd : .drop k ∉ acts) :
    (x.run acts).2.board.consumer? k = some e := by
  induction acts generalizing x with
  | nil => exact hk
  | cons a acts ih =>
    obtain ⟨ha, hclose⟩ := List.ne_and_not_mem_of_not_mem_cons hc
    obtain ⟨ha', hdrop⟩ := List.ne_and_not_mem_of_not_mem_cons hd
    exact ih _ (consumer?_act hk (.inr ⟨ha.symm, ha'.symm⟩)) hclose hdrop

/-- Acts that spare a channel and its queue leave the route, and the consumer's end as it is. -/
theorem spared_run (x : Exchange) {acts : List Act} (ha : ∀ a ∈ acts, a.Spares c k)
    {e : ConsumerEnd} (hk : x.board.consumer? k = some e) :
    (x.run acts).2.board.route? c = x.board.route? c ∧
      (x.run acts).2.board.consumer? k = some e := by
  have not_mem {a : Act} (hs : ¬a.Spares c k) : a ∉ acts := fun hm => hs (ha a hm)
  exact ⟨x.route?_run (not_mem fun hs => hs rfl) (not_mem fun hs => hs rfl),
    x.consumer?_run hk (not_mem fun hs => hs rfl) (not_mem fun hs => hs rfl)⟩

variable {x : Exchange} {journal : List Incident}

theorem Traced.dedicated (ht : x.Traced journal) (hr : x.board.route? c = some k)
    (hc : x.board.consumer? k = some .listening) : x.board.Dedicated c k := by
  refine ⟨hr, fun d hd => ?_, hc⟩
  have attached {e : Channel} (he : x.board.route? e = some k) : .attached e k ∈ journal := by
    obtain ⟨older, newer, rfl, -⟩ := ht.routed e k he
    exact List.mem_append_right _ List.mem_cons_self
  exact ht.owner d c k (attached hd) (attached hr)

/-- A call that waits on the queue of a channel is a call on this channel. -/
theorem Traced.channel_of_held (ht : x.Traced journal) (hr : x.board.route? c = some k)
    {t : Nat} {h : Held} (hh : x.held t = some h) (hq : h.queue = k) : h.call.channel = c := by
  obtain ⟨older, newer, he, -⟩ := ht.routed c k hr
  obtain ⟨older', between, newer', he', -⟩ := ht.held t h hh
  refine ht.owner _ _ k ?_ ?_
  · rw [he', hq]
    exact List.mem_append_right _ List.mem_cons_self
  · rw [he]
    exact List.mem_append_right _ List.mem_cons_self

end Exchange

namespace Dispatcher

variable {d : Dispatcher} {kept : Channel → Prop}

theorem spares_acts (d : Dispatcher) {op : Operation} (h : op.Spares c k) :
    ∀ a ∈ d.acts op, a.Spares c k := by
  have task (ho : op.RunsTask) : ∀ a ∈ d.acts op, a.Spares c k := fun a ha =>
    let ⟨_, hattempts⟩ := d.attempts_acts ho a ha
    hattempts.spares
  cases op with
  | call call => exact fun a ha => by cases ha
  | endStream | push | sendEnd | poll => exact task trivial
  | attach e => exact List.forall_mem_singleton.mpr h
  | detach e => exact List.forall_mem_singleton.mpr h
  | close j => exact List.forall_mem_singleton.mpr h
  | drop j => exact List.forall_mem_singleton.mpr h
  | receive j => exact List.forall_mem_singleton.mpr trivial
  | cancel ticket => exact List.forall_mem_singleton.mpr trivial

/-- A dispatcher that a run has led to, in which the channels that are kept are live and their
consumers listen. -/
structure Attended (kept : Channel → Prop) (d : Dispatcher) : Prop where
  sound : ∃ x journal, d.Tracks x ∧ Exchange.Traced x journal
  opened : ∃ us, d.Open us
  live : ∀ c, kept c → c ∈ d.fanout.live
  routed : ∀ c, kept c → ∃ k, d.board.Dedicated c k

theorem Attended.operate (h : d.Attended kept) {op : Operation}
    (hop : ∀ c k, kept c → d.board.Dedicated c k → op.Spares c k) :
    (d.operate op).value.2.Attended kept ∧ ∀ c k, kept c →
      ((d.operate op).value.2.board.Dedicated c k ↔ d.board.Dedicated c k) := by
  obtain ⟨x, journal, ht, hj⟩ := h.sound
  have ht' := (ht.operate op).1
  have hj' : Exchange.Traced (x.run (d.acts op)).2 (journal ++ (x.run (d.acts op)).1) :=
    Exchange.run_induction (fun _ _ a h => h.act a) hj _
  have hdedicated : ∀ c k, kept c → d.board.Dedicated c k →
      (d.operate op).value.2.board.Dedicated c k := by
    intro c k hc hb
    have hlistens : x.board.consumer? k = some .listening := ht.board_eq ▸ hb.listening
    obtain ⟨hr, hk⟩ := x.spared_run (d.spares_acts (hop c k hc hb)) hlistens
    rw [← ht'.board_eq]
    refine hj'.dedicated (hr.trans ?_) hk
    rw [ht.board_eq]
    exact hb.route_eq
  obtain ⟨us, ho⟩ := h.opened
  refine ⟨⟨⟨_, _, ht', hj'⟩, ⟨_, ho.operate op⟩, fun c hc => ?_, fun c hc => ?_⟩,
    fun c k hc => ⟨fun hb => ?_, hdedicated c k hc⟩⟩
  · obtain ⟨k, hb⟩ := h.routed c hc
    refine mem_live_operate (h.live c hc) ?_
    rintro rfl
    exact hop c k hc hb rfl
  · obtain ⟨k, hb⟩ := h.routed c hc
    exact ⟨k, hdedicated c k hc hb⟩
  · obtain ⟨k', hb'⟩ := h.routed c hc
    have hroute := (hdedicated c k' hc hb').route_eq.symm.trans hb.route_eq
    exact Option.some.inj hroute ▸ hb'

theorem Attended.afterEndStream (h : d.Attended kept) (limit : Option Nat) :
    (d.endStream limit).value.2.Attended kept ∧ ∀ c k, kept c →
      ((d.endStream limit).value.2.board.Dedicated c k ↔ d.board.Dedicated c k) :=
  h.operate (show ∀ c k, kept c → d.board.Dedicated c k →
    (Operation.endStream limit).Spares c k from fun _ _ _ _ => trivial)

theorem Attended.afterPoll (h : d.Attended kept) (ticket : Nat) (limit : Option Nat) :
    (d.poll ticket limit).value.2.Attended kept ∧ ∀ c k, kept c →
      ((d.poll ticket limit).value.2.board.Dedicated c k ↔ d.board.Dedicated c k) :=
  h.operate (show ∀ c k, kept c → d.board.Dedicated c k → (Operation.poll ticket limit).Spares c k
    from fun _ _ _ _ => trivial)

/-- A call that waits on the queue of a channel that is kept is a call on this channel. -/
theorem Attended.channel_of_waiting (h : d.Attended kept) (hb : d.board.Dedicated c k)
    {ticket : Nat} {w : WaitingCall} (hw : d.waiting.find? (·.ticket = ticket) = some w)
    (hq : w.queue = some k) {call : SinkCall} (hcall : w.task.call? = some call) :
    call.channel = c := by
  obtain ⟨x, journal, ht, hj⟩ := h.sound
  have hplace := ht.held_place hw
  rw [WaitingCall.place?, Task.place?, hq, hcall] at hplace
  obtain ⟨g, hg, hp⟩ := Option.map_eq_some_iff.mp hplace
  simp only [Held.place, Prod.mk.injEq, Option.some.injEq] at hp
  obtain ⟨hqueue, -, rfl⟩ := hp
  refine hj.channel_of_held ?_ hg hqueue
  rw [ht.board_eq]
  exact hb.route_eq

end Dispatcher

end StreamFanout
