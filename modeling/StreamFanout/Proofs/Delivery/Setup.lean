import Mathlib.Data.List.Nodup
import StreamFanout.Proofs.Delivery.Runs

/-!
The channels are set up before the first unit arrives: they are requested and released, and queues
are attached to them and detached from them. Nothing waits then, every queue is empty, and each
route leads to a queue of its own.
-/
namespace StreamFanout

/-- The operations before the first unit. An end of stream then comes to nothing, and is not left
waiting. -/
def Operation.Prepares : Operation → Prop
  | .call c => c.arrivals = []
  | .endStream limit => limit = none
  | .push .. | .sendEnd _ | .close _ | .drop _ => False
  | _ => True

instance : DecidablePred Operation.Prepares
  | .call call => inferInstanceAs (Decidable (call.arrivals = []))
  | .endStream limit => inferInstanceAs (Decidable (limit = none))
  | .push .. | .sendEnd _ | .close _ | .drop _ => .isFalse id
  | .attach _ | .detach _ | .receive _ | .cancel _ | .poll .. => .isTrue trivial

namespace Dispatcher

def fresh (config : Config) (capacity : Nat) : Dispatcher where
  fanout := { config }
  board := .ofCapacity capacity

structure Prepared (d : Dispatcher) : Prop where
  waiting_eq : d.waiting = []
  nodup : d.fanout.live.Nodup
  groups : d.fanout.grouping.Groups []
  dropped_eq : d.fanout.counters.unitsDropped = 0
  queues : ∀ (k : Nat) (q : Queue), d.board.queues[k]? = some q → q.Serves [] ∧ q.events.toList = []
  routes_lt : ∀ r ∈ d.board.routes, r.2 < d.board.queues.size
  routes_nodup : (d.board.routes.map Prod.snd).Nodup

variable {d : Dispatcher}

theorem prepared_fresh (config : Config) (capacity : Nat) : (fresh config capacity).Prepared where
  waiting_eq := rfl
  nodup := List.nodup_nil
  groups := Grouping.groups_empty
  dropped_eq := rfl
  queues k q hq := by simp [fresh, Switchboard.ofCapacity] at hq
  routes_lt r hr := by cases hr
  routes_nodup := List.nodup_nil

/-- A call that offers no unit leaves all but the live channels. -/
theorem Prepared.perform (h : d.Prepared) {call : HostCall} (hc : call.arrivals = []) :
    (d.perform call).value.2.Prepared := by
  have habsorbs := d.fanout.perform_absorbs call
  have hgroups := habsorbs.groups [] h.groups
  rw [hc] at hgroups
  exact { h with
    nodup := Fanout.nodup_live_perform h.nodup call
    groups := hgroups
    dropped_eq := habsorbs.dropped_eq.trans h.dropped_eq }

theorem Prepared.endStream (h : d.Prepared) : d.endStream.value.2.Prepared := by
  have hg : d.fanout.grouping.groups = [] := h.groups.groups_eq_nil_iff.mpr rfl
  have hstate : d.endStream.value.2 = { d with fanout := { d.fanout with grouping := {} } } := by
    rw [Dispatcher.endStream, Logged.value_bind]
    by_cases hl : d.fanout.live = []
    · have hopening : d.fanout.opening = .discarding [] := by
        rw [Fanout.opening, if_pos hl, hg]
      rw [Fanout.endStream_opens (.inl hl), hopening]
      rfl
    · rw [Fanout.endStream_empty hg hl]
      rfl
  rw [hstate]
  exact { h with groups := Grouping.groups_empty }

theorem Prepared.unroute (h : d.Prepared) (c : Channel) :
    Prepared { d with board := d.board.unroute c } :=
  { h with
    routes_lt := fun r hr => h.routes_lt r (List.mem_of_mem_filter hr)
    routes_nodup := h.routes_nodup.sublist (List.filter_sublist.map Prod.snd) }

theorem Prepared.attach (h : d.Prepared) (c : Channel) : (d.attach c).2.Prepared := by
  have hu := h.unroute c
  refine { h with queues := ?_, routes_lt := ?_, routes_nodup := ?_ }
  · intro k q hq
    have hq : (d.board.queues.push (.ofCapacity d.board.capacity))[k]? = some q := hq
    rw [Array.getElem?_push] at hq
    split at hq
    · cases hq
      exact ⟨Queue.serves_ofCapacity _, rfl⟩
    · exact h.queues k q hq
  · intro r hr
    show r.2 < (d.board.queues.push (.ofCapacity d.board.capacity)).size
    rw [Array.size_push]
    rcases List.mem_cons.mp hr with rfl | hr
    · exact Nat.lt_succ_self _
    · exact Nat.lt_succ_of_lt (hu.routes_lt r hr)
  · refine List.nodup_cons.mpr ⟨fun hm => ?_, hu.routes_nodup⟩
    obtain ⟨r, hr, he⟩ := List.mem_map.mp hm
    have hlt := hu.routes_lt r hr
    rw [he] at hlt
    exact Nat.lt_irrefl _ hlt

theorem Prepared.receive (h : d.Prepared) (queue : Nat) : (d.receive queue).2.Prepared := by
  unfold Dispatcher.receive Switchboard.receive
  cases hq : d.board.queues[queue]? with
  | none => exact h
  | some q =>
    obtain ⟨hserves, hempty⟩ := h.queues queue q hq
    obtain ⟨hserves', hevents⟩ := hserves.receive (d.board.isAttached queue)
    rw [hempty] at hevents
    have hempty' := (List.append_eq_nil_iff.mp hevents.symm).2
    refine { h with queues := ?_, routes_lt := ?_ }
    · intro k p hp
      have hp : (d.board.queues.setIfInBounds queue _)[k]? = some p := hp
      rw [Array.getElem?_setIfInBounds] at hp
      split at hp
      · split at hp
        · cases hp
          exact ⟨hserves', hempty'⟩
        · cases hp
      · exact h.queues k p hp
    · intro r hr
      show r.2 < (d.board.queues.setIfInBounds queue _).size
      rw [Array.size_setIfInBounds]
      exact h.routes_lt r hr

theorem Prepared.operate (h : d.Prepared) {op : Operation} (hop : op.Prepares) :
    (d.operate op).value.2.Prepared := by
  have hfind (ticket : Nat) : d.waiting.find? (·.ticket = ticket) = none := by
    rw [h.waiting_eq]
    rfl
  cases op with
  | call call => exact h.perform hop
  | endStream limit =>
    obtain rfl : limit = none := hop
    exact h.endStream
  | attach c => exact h.attach c
  | detach c => exact h.unroute c
  | receive queue => exact h.receive queue
  | cancel ticket =>
    have hc : (d.cancel ticket).2 = d := by rw [cancel, hfind]
    show (d.cancel ticket).2.Prepared
    rw [hc]
    exact h
  | poll ticket limit =>
    have hp : (d.poll ticket limit).value.2 = d := by rw [poll, hfind]; rfl
    show (d.poll ticket limit).value.2.Prepared
    rw [hp]
    exact h
  | push | sendEnd | close | drop => exact hop.elim

theorem Prepared.operateAll (h : d.Prepared) {ops : List Operation}
    (hops : ∀ op ∈ ops, op.Prepares) : (d.operateAll ops).value.2.Prepared := by
  induction ops generalizing d with
  | nil => exact h
  | cons op ops ih =>
    exact ih (h.operate (hops op List.mem_cons_self)) fun o ho => hops o (List.mem_cons_of_mem _ ho)

/-- Once all live channels are attached, streams can flow. -/
theorem Prepared.flowing (h : d.Prepared)
    (hr : ∀ c ∈ d.fanout.live, (d.board.route? c).isSome = true) :
    d.Flowing d.board.routes d.fanout.live [] (fun _ => []) [] ∧
      ∀ c ∈ d.fanout.live, d.board.queuedFor c = [] := by
  have hmem {c : Channel} {k : Nat} (hc : d.board.route? c = some k) :
      (c, k) ∈ d.board.routes := by
    obtain ⟨xs, ys, hl, -⟩ := List.lookup_eq_some_iff.mp hc
    rw [hl]
    exact List.mem_append_right _ List.mem_cons_self
  have hwired : d.board.Wired d.fanout.live := by
    constructor
    · intro c hc
      obtain ⟨k, hk⟩ := Option.isSome_iff_exists.mp (hr c hc)
      exact ⟨k, hk, h.routes_lt _ (hmem hk)⟩
    · intro c hc e _ he
      obtain ⟨k, hk⟩ := Option.isSome_iff_exists.mp (hr c hc)
      have hk' : d.board.route? e = some k := he ▸ hk
      have heq := List.inj_on_of_nodup_map h.routes_nodup (hmem hk) (hmem hk') rfl
      exact congrArg Prod.fst heq
  refine ⟨⟨rfl, rfl, h.nodup, h.groups, h.dropped_eq, hwired, ?_, .idle h.waiting_eq⟩,
    fun c hc => ?_⟩
  · rw [h.waiting_eq]
    exact fun k q hq => (h.queues k q hq).1
  · obtain ⟨k, hk, hlt⟩ := hwired.routed c hc
    have hq := Array.getElem?_eq_getElem hlt
    rw [Switchboard.queuedFor_of_route hk, Switchboard.contents_of_queue hq, (h.queues k _ hq).2]

end Dispatcher

end StreamFanout
