import Mathlib.Data.List.Perm.Subperm
import StreamFanout.Proofs.Delivery.Attended
import StreamFanout.Proofs.Delivery.Wakes

/-!
How long a queue stays attached, and what is still put on it afterwards. A queue is attached under
the channel that it was made for until this channel is attached again or detached, and never comes
back. Calls that wait on it then keep their places: while its consumer listens, what they have to
put is put, read or still to come, unless they are given up.
-/
namespace StreamFanout

open scoped List

def Operation.act? : Operation → Option Act
  | .attach c => some (.attach c)
  | .detach c => some (.detach c)
  | .receive queue => some (.receive queue)
  | .close queue => some (.close queue)
  | .drop queue => some (.drop queue)
  | .cancel ticket => some (.giveUp ticket)
  | _ => none

theorem Operation.not_attempts {op : Operation} {a : Act} (h : op.act? = some a) (ticket : Nat) :
    ¬a.Attempts ticket := by
  cases op <;> cases h <;> exact id

theorem Operation.act?_inj {op op' : Operation} {a : Act} (h : op.act? = some a)
    (h' : op'.act? = some a) : op = op' := by
  cases op <;> cases h <;> cases op' <;> cases h' <;> rfl

/-- Where two ways to pick differ at most at `i`, a list without repetition gives at most one
element more under the first, that at `i`. -/
theorem subperm_filterMap_of_eq {α : Type} {f g : Nat → Option α} {i : Nat}
    (h : ∀ j, j ≠ i → f j = g j) {is : List Nat} (hn : is.Nodup) :
    is.filterMap f <+~ (f i).toList ++ is.filterMap g := by
  have cons (f : Nat → Option α) (j : Nat) (js : List Nat) :
      (j :: js).filterMap f = (f j).toList ++ js.filterMap f := by
    rw [List.filterMap_cons]
    cases f j <;> rfl
  induction is with
  | nil => exact List.nil_subperm
  | cons j is ih =>
    obtain ⟨hj, hn⟩ := List.nodup_cons.mp hn
    rw [cons f, cons g]
    by_cases he : j = i
    · subst he
      have hrest : is.filterMap f = is.filterMap g :=
        List.filterMap_congr fun t ht => h t fun he => hj (he ▸ ht)
      rw [hrest]
      exact (List.Subperm.refl _).append (List.sublist_append_right _ _).subperm
    · rw [h j he]
      refine ((List.Subperm.refl _).append (ih hn)).trans (List.Perm.subperm ?_)
      rw [← List.append_assoc, ← List.append_assoc]
      exact List.perm_append_comm.append_right _

namespace Switchboard

variable {b : Switchboard} {c : Channel} {k : Nat}

theorem isAttached_iff : b.isAttached k ↔ ∃ c, (c, k) ∈ b.routes := by
  simp [isAttached]

theorem isAttached_of_route? (h : b.route? c = some k) : b.isAttached k := by
  obtain ⟨before, after, he, -⟩ := List.lookup_eq_some_iff.mp h
  refine isAttached_iff.mpr ⟨c, ?_⟩
  rw [he]
  exact List.mem_append_right _ List.mem_cons_self

theorem size_lt_attach (b : Switchboard) (c : Channel) :
    b.queues.size < (b.attach c).2.queues.size :=
  b.size_attach c ▸ Nat.lt_succ_self _

theorem lt_of_consumer? {e : ConsumerEnd} (h : b.consumer? k = some e) : k < b.queues.size := by
  obtain ⟨q, hq, -⟩ := Option.map_eq_some_iff.mp h
  exact (Array.getElem?_eq_some_iff.mp hq).1

end Switchboard

namespace Exchange

variable {x : Exchange} {c : Channel} {k : Nat}

theorem size_le_act (x : Exchange) (a : Act) :
    x.board.queues.size ≤ (x.act a).2.board.queues.size := by
  have ht := x.takes_act a
  generalize x.act a = r at ht
  cases ht with
  | attach c => exact Nat.le_of_lt (x.board.size_lt_attach c)
  | call t byHost call j hh hr r hc =>
    subst hc
    rw [board_conclude]
    exact Nat.le_of_eq (Switchboard.size_sendBy _ _ _).symm
  | retry t h hh =>
    rw [board_conclude]
    exact Nat.le_of_eq (Switchboard.size_sendBy _ _ _).symm
  | giveUp | close | drop => exact Nat.le_of_eq (Switchboard.size_modify _ _ _).symm
  | receive queue => exact Nat.le_of_eq (Switchboard.size_receive _ _).symm
  | detach | busy | unrouted | void => exact Nat.le_refl _

/-- A route leads to a new queue, or it was there before and its channel has been left alone. -/
theorem mem_routes_act (x : Exchange) {a : Act} (hr : (c, k) ∈ (x.act a).2.board.routes) :
    (c, k) ∈ x.board.routes ∧ a ≠ .attach c ∧ a ≠ .detach c ∨
      a = .attach c ∧ k = x.board.queues.size := by
  have kept {d : Channel} (h : (c, k) ∈ (x.board.unroute d).routes) :
      (c, k) ∈ x.board.routes ∧ c ≠ d := by
    obtain ⟨hm, hne⟩ := List.mem_filter.mp h
    exact ⟨hm, of_decide_eq_true hne⟩
  have ht := x.takes_act a
  generalize x.act a = r at ht hr
  cases ht with
  | attach d =>
    rcases List.mem_cons.mp hr with he | hr
    · cases he
      exact .inr ⟨rfl, rfl⟩
    · obtain ⟨hm, hne⟩ := kept hr
      exact .inl ⟨hm, fun he => hne (Act.attach.inj he).symm, nofun⟩
  | detach d =>
    obtain ⟨hm, hne⟩ := kept hr
    exact .inl ⟨hm, nofun, fun he => hne (Act.detach.inj he).symm⟩
  | call t byHost call j hh hroute r hc =>
    subst hc
    rw [board_conclude, Switchboard.routes_sendBy] at hr
    exact .inl ⟨hr, nofun, nofun⟩
  | retry t h hh =>
    rw [board_conclude, Switchboard.routes_sendBy] at hr
    exact .inl ⟨hr, nofun, nofun⟩
  | receive queue =>
    have hr : (c, k) ∈ (x.board.receive queue).2.routes := hr
    rw [Switchboard.routes_receive] at hr
    exact .inl ⟨hr, nofun, nofun⟩
  | void a t ha => rcases ha with rfl | rfl <;> exact .inl ⟨hr, nofun, nofun⟩
  | busy | unrouted | giveUp | close | drop => exact .inl ⟨hr, nofun, nofun⟩

/-- Each route leads to a queue that has been made. -/
def Numbered (x : Exchange) : Prop :=
  ∀ c k, (c, k) ∈ x.board.routes → k < x.board.queues.size

theorem Numbered.act (h : x.Numbered) (a : Act) : (x.act a).2.Numbered := by
  intro c k hr
  rcases x.mem_routes_act hr with ⟨hold, -⟩ | ⟨rfl, rfl⟩
  · exact Nat.lt_of_lt_of_le (h c k hold) (x.size_le_act a)
  · exact x.board.size_lt_attach c

theorem Numbered.run (h : x.Numbered) (acts : List Act) : (x.run acts).2.Numbered := by
  induction acts generalizing x with
  | nil => exact h
  | cons a acts ih => exact ih (h.act a)

/-- A route to a queue that was there at the beginning has been there all along. -/
theorem mem_routes_run {acts : List Act} (hr : (c, k) ∈ (x.run acts).2.board.routes)
    (hk : k < x.board.queues.size) :
    (c, k) ∈ x.board.routes ∧ .attach c ∉ acts ∧ .detach c ∉ acts := by
  induction acts generalizing x with
  | nil => exact ⟨hr, List.not_mem_nil, List.not_mem_nil⟩
  | cons a acts ih =>
    obtain ⟨hfirst, hattach, hdetach⟩ := ih hr (Nat.lt_of_lt_of_le hk (x.size_le_act a))
    rcases x.mem_routes_act hfirst with ⟨hold, hne, hne'⟩ | ⟨-, he⟩
    · exact ⟨hold, List.not_mem_cons_of_ne_of_not_mem hne.symm hattach,
        List.not_mem_cons_of_ne_of_not_mem hne'.symm hdetach⟩
    · exact absurd hk (Nat.not_lt.mpr (Nat.le_of_eq he.symm))

/-- A new queue is attached as long as its channel is neither attached again nor detached. -/
theorem attached_run (h : x.Numbered) (c : Channel) (acts : List Act) :
    let b := ((x.act (.attach c)).2.run acts).2.board
    (b.route? c = some x.board.queues.size ↔ .attach c ∉ acts ∧ .detach c ∉ acts) ∧
      (b.isAttached x.board.queues.size ↔ b.route? c = some x.board.queues.size) := by
  intro b
  have hnew : (x.act (.attach c)).2.board.route? c = some x.board.queues.size :=
    (x.board.route?_attach c c).trans (if_pos rfl)
  have hleft (hb : b.isAttached x.board.queues.size) : .attach c ∉ acts ∧ .detach c ∉ acts := by
    obtain ⟨d, hd⟩ := Switchboard.isAttached_iff.mp hb
    obtain ⟨hd, hacts⟩ := mem_routes_run hd (x.board.size_lt_attach c)
    rcases x.mem_routes_act hd with ⟨hold, -⟩ | ⟨he, -⟩
    · exact absurd (h d _ hold) (Nat.lt_irrefl _)
    · cases he
      exact hacts
  have hroute (ha : .attach c ∉ acts ∧ .detach c ∉ acts) :
      b.route? c = some x.board.queues.size := (route?_run _ ha.1 ha.2).trans hnew
  exact ⟨⟨fun hb => hleft (Switchboard.isAttached_of_route? hb), hroute⟩,
    fun hb => hroute (hleft hb), Switchboard.isAttached_of_route?⟩

/-- The event that the call under a ticket still has to put on the queue `k`. -/
def toPut (x : Exchange) (k ticket : Nat) : Option ConsumerEvent :=
  (x.held ticket).bind fun h => if h.queue = k then some h.call.event else none

/-- What is on the queue `k`, and what the calls under some tickets still have to put there. -/
def pending (x : Exchange) (k : Nat) (tickets : List Nat) : List ConsumerEvent :=
  x.board.contents k ++ tickets.filterMap (x.toPut k)

/-- As long as its consumer listens, what a call has to put on a queue is sent there, or the call
still waits or is given up. -/
theorem toPut_act (hl : x.board.consumer? k = some .listening) {tickets : List Nat}
    (hn : tickets.Nodup) {a : Act} (ha : ∀ t ∈ tickets, a ≠ .giveUp t) :
    tickets.filterMap (x.toPut k) <+~
      (x.act a).1.filterMap (Incident.sentOn? k) ++ tickets.filterMap ((x.act a).2.toPut k) := by
  have same {y : Exchange} (hy : ∀ t ∈ tickets, y.held t = x.held t) (sent : List ConsumerEvent) :
      tickets.filterMap (x.toPut k) <+~ sent ++ tickets.filterMap (y.toPut k) := by
    have hput : tickets.filterMap (x.toPut k) = tickets.filterMap (y.toPut k) :=
      List.filterMap_congr fun t ht => by rw [toPut, toPut, hy t ht]
    rw [hput]
    exact (List.sublist_append_right _ _).subperm
  have changed {y : Exchange} (ticket : Nat) (hy : ∀ t, t ≠ ticket → y.held t = x.held t)
      {sent : List ConsumerEvent} (hs : (x.toPut k ticket).toList.Sublist sent) :
      tickets.filterMap (x.toPut k) <+~ sent ++ tickets.filterMap (y.toPut k) :=
    (subperm_filterMap_of_eq (fun t ht => by rw [toPut, toPut, hy t ht]) hn).trans
      (hs.subperm.append (List.Subperm.refl _))
  have ht := x.takes_act a
  generalize x.act a = r at ht
  cases ht with
  | call ticket byHost call j hh hr r hc =>
    subst hc
    refine changed ticket (fun t ht => ?_) ?_
    · rw [held_conclude, Function.update_of_ne ht]
      exact Function.update_of_ne ht _ _
    · rw [toPut, hh]
      exact List.nil_sublist _
  | retry ticket h hh =>
    -- the one act by which a call leaves its ticket without being given up
    have hother (t : Nat) (ht : t ≠ ticket) : (x.conclude ticket h
        (x.board.sendBy h.queue (·.retry ticket h.call.event))).2.held t = x.held t := by
      rw [held_conclude, Function.update_of_ne ht]
    have hput : x.toPut k ticket = if h.queue = k then some h.call.event else none := by
      rw [toPut, hh]
      rfl
    rw [sentOn_conclude]
    by_cases hq : h.queue = k
    · subst hq
      have hresult := Switchboard.sendBy_ne_refused hl fun q hq =>
        q.retry_ne_refused hq ticket h.call.event
      generalize hs : x.board.sendBy h.queue (·.retry ticket h.call.event) = s at hother hresult
      obtain ⟨result, board⟩ := s
      cases result with
      | refused => exact absurd rfl hresult
      | sent =>
        refine changed ticket hother ?_
        rw [hput, if_pos rfl, if_pos rfl]
        exact List.Sublist.refl _
      | waiting =>
        refine same (fun t _ => ?_) _
        show Function.update x.held ticket (some h) t = _
        rw [Function.update_eq_self_iff.mpr hh.symm]
    · refine changed ticket hother ?_
      rw [hput, if_neg hq]
      exact List.nil_sublist _
  | giveUp ticket h hh =>
    refine same (fun t ht => ?_) _
    show Function.update x.held ticket none t = _
    rw [Function.update_of_ne]
    rintro rfl
    exact ha t ht rfl
  | attach | detach | busy | unrouted | void | receive | close | drop =>
    exact same (fun _ _ => rfl) _

/-- What is pending on a queue whose consumer listens is read, or it stays pending, as long as none
of the calls is given up. -/
theorem pending_run (hl : x.board.consumer? k = some .listening) {tickets : List Nat}
    (hn : tickets.Nodup) {acts : List Act} (hc : .close k ∉ acts) (hd : .drop k ∉ acts)
    (hg : ∀ t ∈ tickets, .giveUp t ∉ acts) :
    x.pending k tickets <+~
      (x.run acts).1.filterMap (Incident.readOn? k) ++ (x.run acts).2.pending k tickets := by
  induction acts generalizing x with
  | nil => exact List.Subperm.refl _
  | cons a acts ih =>
    obtain ⟨hclose, hcloses⟩ := List.ne_and_not_mem_of_not_mem_cons hc
    obtain ⟨hdrop, hdrops⟩ := List.ne_and_not_mem_of_not_mem_cons hd
    have hl' := consumer?_act hl (.inr ⟨hclose.symm, hdrop.symm⟩)
    have hput := toPut_act hl hn (a := a) fun t ht he => hg t ht (he ▸ List.mem_cons_self)
    have hcontents := x.contents_act a (k := k) (by rw [hl']; exact nofun)
    have hrest := ih hl' hcloses hdrops fun t ht hm => hg t ht (List.mem_cons_of_mem _ hm)
    rw [run, List.filterMap_append, List.append_assoc]
    refine List.Subperm.trans ?_ ((List.Subperm.refl _).append hrest)
    rw [pending, pending, ← List.append_assoc, ← hcontents, List.append_assoc]
    exact (List.Subperm.refl _).append hput

end Exchange

/-- What is done at the switchboard other than by tasks is what the operations say. -/
theorem Dispatcher.mem_actsAll_iff {d : Dispatcher} {op : Operation} {a : Act}
    (ha : op.act? = some a) {ops : List Operation} : a ∈ d.actsAll ops ↔ op ∈ ops := by
  have mem_acts (d : Dispatcher) (op' : Operation) : a ∈ d.acts op' ↔ op = op' := by
    have task (ho : op'.RunsTask) (hn : op'.act? = none) : a ∈ d.acts op' ↔ op = op' := by
      constructor
      · intro hm
        obtain ⟨ticket, hattempts⟩ := d.attempts_acts ho a hm
        exact absurd hattempts (Operation.not_attempts ha ticket)
      · rintro rfl
        cases hn.symm.trans ha
    have single (hop : op'.act?.toList = d.acts op') : a ∈ d.acts op' ↔ op = op' := by
      rw [← hop, Option.mem_toList]
      exact ⟨fun he => Operation.act?_inj ha he, fun he => he ▸ ha⟩
    cases op' with
    | endStream | push | sendEnd | poll => exact task trivial rfl
    | call | attach | detach | receive | close | drop | cancel => exact single rfl
  induction ops generalizing d with
  | nil => exact ⟨nofun, nofun⟩
  | cons op' ops ih =>
    rw [actsAll, List.mem_append, List.mem_cons]
    exact or_congr (mem_acts d op') ih

end StreamFanout
