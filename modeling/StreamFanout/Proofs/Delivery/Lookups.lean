import StreamFanout.Proofs.Delivery.Contents

/-!
Which queue a call is sent on. A call keeps to the queue that its channel led to when the call
began, whatever happens to the route while it waits; and a queue is attached under one channel only.
-/
namespace StreamFanout

/-- When the call with number `n` began, its channel led to the queue `k`: the queue had been
attached under this channel, and the channel not attached again or detached since. -/
def Looked (journal : List Incident) (n : Nat) (call : SinkCall) (k : Nat) : Prop :=
  ∃ older between newer,
    journal = older ++ .attached call.channel k :: (between ++ .begun n call :: newer) ∧
      ∀ i ∈ between, ¬i.Reroutes call.channel

theorem Looked.append {journal : List Incident} {n k : Nat} {call : SinkCall}
    (h : Looked journal n call k) (more : List Incident) : Looked (journal ++ more) n call k := by
  obtain ⟨older, between, newer, rfl, hb⟩ := h
  exact ⟨older, between, newer ++ more, by simp, hb⟩

/-- An incident that neither changes a route nor puts an event on a queue. -/
def Incident.Plain : Incident → Prop
  | attached .. | detached _ | sent .. => False
  | _ => True

namespace Switchboard

theorem route?_unroute (b : Switchboard) (c d : Channel) :
    (b.unroute c).route? d = if d = c then none else b.route? d := by
  have lookup (routes : List (Channel × Nat)) :
      (routes.filter (·.1 ≠ c)).lookup d = if d = c then none else routes.lookup d := by
    induction routes with
    | nil => simp
    | cons r routes ih =>
      obtain ⟨e, k⟩ := r
      by_cases he : e = c
      · rw [List.filter_cons_of_neg (by simpa using he), ih, List.lookup_cons]
        by_cases hd : d = c
        · rw [if_pos hd, if_pos hd]
        · have hde : (d == e) = false := beq_eq_false_iff_ne.mpr fun h => hd (h.trans he)
          rw [if_neg hd, if_neg hd, hde]
      · rw [List.filter_cons_of_pos (by simpa using he), List.lookup_cons, List.lookup_cons]
        by_cases hde : d = e
        · have hdc : d ≠ c := fun h => he (hde.symm.trans h)
          simp [hde, he]
        · have hb : (d == e) = false := beq_eq_false_iff_ne.mpr hde
          rw [hb]
          exact ih
  exact lookup b.routes

theorem route?_attach (b : Switchboard) (c d : Channel) :
    (b.attach c).2.route? d = if d = c then some b.queues.size else b.route? d := by
  have hcons : (b.attach c).2.route? d =
      ((c, b.queues.size) :: (b.unroute c).routes).lookup d := rfl
  have hold : (b.unroute c).routes.lookup d = (b.unroute c).route? d := rfl
  rw [hcons, List.lookup_cons, hold, route?_unroute]
  by_cases hd : d = c
  · simp [hd]
  · have hb : (d == c) = false := beq_eq_false_iff_ne.mpr hd
    simp [hb, hd]

end Switchboard

namespace Exchange

variable {x : Exchange} {journal : List Incident} {ticket : Nat} {h : Held}

/-- The journal tells where routes lead, and where the calls that wait or were sent have looked up
their queues. -/
structure Traced (x : Exchange) (journal : List Incident) : Prop where
  routed : ∀ c k, x.board.route? c = some k → ∃ older newer,
    journal = older ++ .attached c k :: newer ∧ ∀ i ∈ newer, ¬i.Reroutes c
  held : ∀ t h, x.held t = some h → Looked journal h.number h.call h.queue
  sent : ∀ n call k, .sent n call k ∈ journal → Looked journal n call k
  attached_lt : ∀ c k, .attached c k ∈ journal → k < x.board.queues.size
  owner : ∀ c d k, .attached c k ∈ journal → .attached d k ∈ journal → c = d

theorem traced_fresh (capacity : Nat) : (ofCapacity capacity).Traced [] where
  routed c k hk := by cases hk
  held t h hh := by cases hh
  sent n call k hs := by cases hs
  attached_lt c k ha := by cases ha
  owner c d k ha := by cases ha

/-- No route changes, and the calls that are held or sent have looked up their queues. -/
theorem Traced.extend (ht : x.Traced journal) {y : Exchange} {incidents : List Incident}
    (hroutes : y.board.routes = x.board.routes)
    (hsize : y.board.queues.size = x.board.queues.size)
    (hheld : ∀ t g, y.held t = some g →
      x.held t = some g ∨ Looked (journal ++ incidents) g.number g.call g.queue)
    (hi : ∀ i ∈ incidents, i.Plain ∨ ∃ n call k, i = .sent n call k ∧ Looked journal n call k) :
    y.Traced (journal ++ incidents) := by
  have hattached (c : Channel) (k : Nat) (hm : .attached c k ∈ journal ++ incidents) :
      .attached c k ∈ journal := by
    refine (List.mem_append.mp hm).resolve_right fun him => ?_
    rcases hi _ him with hp | ⟨n, call, k, he, -⟩
    · exact hp
    · cases he
  constructor
  · intro c k hk
    rw [Switchboard.route?_congr hroutes] at hk
    obtain ⟨older, newer, rfl, hn⟩ := ht.routed c k hk
    refine ⟨older, newer ++ incidents, by simp, fun i him => ?_⟩
    rcases List.mem_append.mp him with him | him
    · exact hn i him
    · rcases hi i him with hp | ⟨n, call, k, rfl, -⟩
      · cases i <;> first | exact id | exact hp.elim
      · exact id
  · intro t g hg
    exact (hheld t g hg).elim (fun hx => (ht.held t g hx).append incidents) id
  · intro n call k hm
    rcases List.mem_append.mp hm with hj | him
    · exact (ht.sent n call k hj).append incidents
    · rcases hi _ him with hp | ⟨n', call', k', he, hl⟩
      · exact hp.elim
      · cases he
        exact hl.append incidents
  · intro c k hm
    rw [hsize]
    exact ht.attached_lt c k (hattached c k hm)
  · exact fun c d k hc hd => ht.owner c d k (hattached c k hc) (hattached d k hd)

/-- A channel that is detached leads nowhere, and all others to where they led. -/
theorem Traced.detach (ht : x.Traced journal) (c : Channel) :
    Traced { x with board := x.board.unroute c } (journal ++ [.detached c]) := by
  have hold {i : Incident} (hm : i ∈ journal ++ [.detached c]) (hne : i ≠ .detached c) :
      i ∈ journal :=
    (List.mem_append.mp hm).resolve_right fun he => hne (List.mem_singleton.mp he)
  constructor
  · intro d k hk
    have hk : (x.board.unroute c).route? d = some k := hk
    rw [Switchboard.route?_unroute] at hk
    split at hk
    · cases hk
    · next hd =>
      obtain ⟨older, newer, rfl, hn⟩ := ht.routed d k hk
      refine ⟨older, newer ++ [.detached c], by simp, fun i hi => ?_⟩
      rcases List.mem_append.mp hi with hi | hi
      · exact hn i hi
      · cases List.mem_singleton.mp hi
        exact Ne.symm hd
  · exact fun t g hg => (ht.held t g hg).append _
  · exact fun n call k hm => (ht.sent n call k (hold hm nofun)).append _
  · exact fun d k hm => ht.attached_lt d k (hold hm nofun)
  · exact fun d e k hd he => ht.owner d e k (hold hd nofun) (hold he nofun)

/-- A new queue is attached under one channel. -/
theorem Traced.attach (ht : x.Traced journal) (c : Channel) :
    Traced { x with board := (x.board.attach c).2 }
      (journal ++ [.attached c x.board.queues.size]) := by
  have hsize := x.board.size_attach c
  have hattached (d : Channel) (k : Nat)
      (hm : .attached d k ∈ journal ++ [.attached c x.board.queues.size]) :
      .attached d k ∈ journal ∧ k < x.board.queues.size ∨ d = c ∧ k = x.board.queues.size := by
    rcases List.mem_append.mp hm with hj | hnew
    · exact .inl ⟨hj, ht.attached_lt d k hj⟩
    · cases List.mem_singleton.mp hnew
      exact .inr ⟨rfl, rfl⟩
  constructor
  · intro d k hk
    have hk : (x.board.attach c).2.route? d = some k := hk
    rw [Switchboard.route?_attach] at hk
    split at hk
    · next hd =>
      cases hk
      exact ⟨journal, [], by rw [hd], fun i hi => by cases hi⟩
    · next hd =>
      obtain ⟨older, newer, rfl, hn⟩ := ht.routed d k hk
      refine ⟨older, newer ++ [.attached c x.board.queues.size], by simp, fun i hi => ?_⟩
      rcases List.mem_append.mp hi with hi | hi
      · exact hn i hi
      · cases List.mem_singleton.mp hi
        exact Ne.symm hd
  · exact fun t g hg => (ht.held t g hg).append _
  · intro n call k hm
    have hj : .sent n call k ∈ journal :=
      (List.mem_append.mp hm).resolve_right fun he => by cases List.mem_singleton.mp he
    exact (ht.sent n call k hj).append _
  · intro d k hm
    show k < (x.board.attach c).2.queues.size
    rw [hsize]
    rcases hattached d k hm with ⟨-, hlt⟩ | ⟨-, rfl⟩
    · exact Nat.lt_succ_of_lt hlt
    · exact Nat.lt_succ_self _
  · intro d e k hd he
    rcases hattached d k hd with ⟨hd, hlt⟩ | ⟨rfl, rfl⟩
    · rcases hattached e k he with ⟨he, -⟩ | ⟨-, rfl⟩
      · exact ht.owner d e k hd he
      · exact absurd hlt (Nat.lt_irrefl _)
    · rcases hattached e _ he with ⟨-, hlt⟩ | ⟨rfl, -⟩
      · exact absurd hlt (Nat.lt_irrefl _)
      · rfl

theorem Traced.hold (ht : x.Traced journal) (hk : x.board.route? h.call.channel = some h.queue) :
    (x.hold ticket h).Traced (journal ++ [.begun h.number h.call]) := by
  refine ht.extend rfl rfl (fun t g hg => ?_) fun i hi => .inl ?_
  · rcases held_hold_iff.mp hg with ⟨-, rfl⟩ | ⟨-, hold⟩
    · obtain ⟨older, newer, rfl, hn⟩ := ht.routed _ _ hk
      exact .inr ⟨older, newer, [], by simp, hn⟩
    · exact .inl hold
  · exact List.mem_singleton.mp hi ▸ trivial

theorem Traced.conclude (ht : x.Traced journal) (hh : x.held ticket = some h)
    {r : SendResult × Switchboard} (hroutes : r.2.routes = x.board.routes)
    (hsize : r.2.queues.size = x.board.queues.size) :
    (x.conclude ticket h r).2.Traced (journal ++ (x.conclude ticket h r).1) := by
  obtain ⟨result, board⟩ := r
  cases result with
  | sent =>
    refine ht.extend hroutes hsize (fun t g hg => .inl (held_free_iff.mp hg).2) fun i hi => ?_
    rcases List.mem_pair.mp hi with rfl | rfl
    · exact .inr ⟨_, _, _, rfl, ht.held ticket h hh⟩
    · exact .inl trivial
  | refused =>
    exact ht.extend hroutes hsize (fun t g hg => .inl (held_free_iff.mp hg).2)
      fun i hi => .inl (List.mem_singleton.mp hi ▸ trivial)
  | waiting =>
    have hsame : Function.update x.held ticket (some h) = x.held :=
      Function.update_eq_self_iff.mpr hh.symm
    refine ht.extend hroutes hsize (fun t g hg => .inl ?_) fun i hi => by cases hi
    exact hsame ▸ hg

theorem Traced.act (ht : x.Traced journal) (a : Act) :
    (x.act a).2.Traced (journal ++ (x.act a).1) := by
  have hx := x.takes_act a
  generalize x.act a = r at hx
  cases hx with
  | attach c => exact ht.attach c
  | detach c => exact ht.detach c
  | unrouted t byHost call hh hr =>
    refine ht.extend rfl rfl (fun t g hg => .inl hg) fun i hi => .inl ?_
    rcases List.mem_pair.mp hi with rfl | rfl
    · trivial
    · trivial
  | call t byHost call k hh hr r hc =>
    subst hc
    have hb : (x.hold t ⟨x.begun, k, byHost, call⟩).Traced _ := ht.hold hr
    have hc := hb.conclude (Function.update_self ..) (Switchboard.routes_sendBy _ k _)
      (x.board.size_sendBy k (·.offer t call.event))
    rwa [List.append_assoc] at hc
  | retry t h hh =>
    exact ht.conclude hh (Switchboard.routes_sendBy _ _ _) (Switchboard.size_sendBy _ _ _)
  | giveUp t h hh =>
    exact ht.extend rfl (Switchboard.size_modify _ _ _)
      (fun t g hg => .inl (held_free_iff.mp hg).2)
      fun i hi => .inl (List.mem_singleton.mp hi ▸ trivial)
  | receive queue =>
    refine ht.extend (Switchboard.routes_receive _ _) (Switchboard.size_receive _ _)
      (fun t g hg => .inl hg) fun i hi => .inl ?_
    obtain ⟨e, -, rfl⟩ := List.mem_map.mp hi
    trivial
  | busy | void => exact ht.extend rfl rfl (fun t g hg => .inl hg) fun i hi => by cases hi
  | close queue | drop queue =>
    exact ht.extend rfl (Switchboard.size_modify _ _ _) (fun t g hg => .inl hg)
      fun i hi => by cases hi

end Exchange

end StreamFanout
