import StreamFanout.Proofs.Delivery.Exchange

/-!
What is on the queues of an exchange. Sends put their events behind what is queued, a consumer
takes what is queued first, and nothing else changes the contents of a queue until its consumer
drops it.
-/
namespace StreamFanout

def SendResult.adds (e : ConsumerEvent) : SendResult → List ConsumerEvent
  | sent => [e]
  | _ => []

namespace Queue

@[simp] theorem consumer_grant (q : Queue) : q.grant.consumer = q.consumer := by
  rw [grant]
  split <;> rfl

@[simp] theorem consumer_offer (q : Queue) (ticket : Nat) (e : ConsumerEvent) :
    (q.offer ticket e).2.consumer = q.consumer := by
  unfold offer
  split
  · rfl
  · split <;> rfl

@[simp] theorem consumer_retry (q : Queue) (ticket : Nat) (e : ConsumerEvent) :
    (q.retry ticket e).2.consumer = q.consumer := by
  unfold retry
  split
  · rfl
  · split <;> rfl

@[simp] theorem consumer_forget (q : Queue) (ticket : Nat) :
    (q.forget ticket).consumer = q.consumer := by
  unfold forget
  split
  · exact consumer_grant _
  · rfl

@[simp] theorem consumer_receive (q : Queue) (isAttached : Bool) :
    (q.receive isAttached).2.consumer = q.consumer := by
  unfold receive
  split <;> simp_all

theorem toList_offer (q : Queue) (ticket : Nat) (e : ConsumerEvent) :
    (q.offer ticket e).2.events.toList =
      q.events.toList ++ (q.offer ticket e).1.adds e := by
  unfold offer
  split
  · exact (List.append_nil _).symm
  · split
    · exact Fifo.toList_push _ _
    · exact (List.append_nil _).symm

theorem toList_retry (q : Queue) (ticket : Nat) (e : ConsumerEvent) :
    (q.retry ticket e).2.events.toList =
      q.events.toList ++ (q.retry ticket e).1.adds e := by
  unfold retry
  split
  · exact (List.append_nil _).symm
  · split
    · exact Fifo.toList_push _ _
    · exact (List.append_nil _).symm

@[simp] theorem events_forget (q : Queue) (ticket : Nat) :
    (q.forget ticket).events = q.events := by
  unfold forget
  split
  · exact events_grant _
  · rfl

@[simp] theorem events_close (q : Queue) : q.close.events = q.events := by
  unfold close
  split <;> rfl

theorem toList_receive (q : Queue) (isAttached : Bool) :
    q.events.toList =
      (q.receive isAttached).1.event?.toList ++ (q.receive isAttached).2.events.toList := by
  unfold receive
  split
  · rfl
  · next e events hpop _ =>
    rw [events_grant]
    exact Fifo.toList_of_pop? hpop
  · rfl
  · split <;> rfl

/-- A send puts the event `e` behind what is queued, or changes nothing there. -/
structure Puts (e : ConsumerEvent) (send : Queue → SendResult × Queue) : Prop where
  consumer_eq : ∀ q, (send q).2.consumer = q.consumer
  toList_eq : ∀ q, (send q).2.events.toList = q.events.toList ++ (send q).1.adds e

theorem puts_offer (ticket : Nat) (e : ConsumerEvent) : Puts e (offer · ticket e) :=
  ⟨fun q => q.consumer_offer ticket e, fun q => q.toList_offer ticket e⟩

theorem puts_retry (ticket : Nat) (e : ConsumerEvent) : Puts e (retry · ticket e) :=
  ⟨fun q => q.consumer_retry ticket e, fun q => q.toList_retry ticket e⟩

end Queue

namespace Switchboard

variable {b : Switchboard}

def consumer? (b : Switchboard) (k : Nat) : Option ConsumerEnd :=
  b.queues[k]?.map Queue.consumer

theorem getElem?_set {k : Nat} {q : Queue} (h : b.queues[k]? = some q) (q' : Queue) (j : Nat) :
    (b.queues.setIfInBounds k q')[j]? = if j = k then some q' else b.queues[j]? := by
  have hk : k < b.queues.size := (Array.getElem?_eq_some_iff.mp h).1
  rw [Array.getElem?_setIfInBounds]
  by_cases hj : k = j
  · rw [if_pos hj, if_pos hk, if_pos hj.symm]
  · rw [if_neg hj, if_neg (Ne.symm hj)]

theorem getElem?_modify (b : Switchboard) (k j : Nat) (f : Queue → Queue) :
    (b.modify k f).queues[j]? = if k = j then b.queues[j]?.map f else b.queues[j]? := by
  show (b.queues.modify k f)[j]? = _
  rw [Array.getElem?_modify]

@[simp] theorem size_attach (b : Switchboard) (c : Channel) :
    (b.attach c).2.queues.size = b.queues.size + 1 :=
  Array.size_push _

theorem getElem?_attach (b : Switchboard) (c : Channel) (j : Nat) :
    (b.attach c).2.queues[j]? =
      if j = b.queues.size then some (.ofCapacity b.capacity) else b.queues[j]? :=
  Array.getElem?_push

@[simp] theorem routes_sendBy (b : Switchboard) (k : Nat) (send : Queue → SendResult × Queue) :
    (b.sendBy k send).2.routes = b.routes := by
  unfold sendBy
  split <;> rfl

@[simp] theorem size_sendBy (b : Switchboard) (k : Nat) (send : Queue → SendResult × Queue) :
    (b.sendBy k send).2.queues.size = b.queues.size := by
  unfold sendBy
  split
  · exact Array.size_setIfInBounds
  · rfl

@[simp] theorem routes_receive (b : Switchboard) (k : Nat) :
    (b.receive k).2.routes = b.routes := by
  unfold receive
  split <;> rfl

@[simp] theorem size_receive (b : Switchboard) (k : Nat) :
    (b.receive k).2.queues.size = b.queues.size := by
  unfold receive
  split
  · exact Array.size_setIfInBounds
  · rfl

@[simp] theorem size_modify (b : Switchboard) (k : Nat) (f : Queue → Queue) :
    (b.modify k f).queues.size = b.queues.size :=
  Array.size_modify

/-- A change of one queue is a send that sends nothing. -/
theorem modify_eq_sendBy (b : Switchboard) (k : Nat) (f : Queue → Queue) :
    b.modify k f = (b.sendBy k fun q => (.refused, f q)).2 := by
  have hqueues : b.queues.modify k f = (b.sendBy k fun q => (.refused, f q)).2.queues := by
    refine Array.ext_getElem? fun j => ?_
    rw [Array.getElem?_modify]
    unfold sendBy
    cases hq : b.queues[k]? with
    | none =>
      split
      · next hj =>
        rw [← hj, hq]
        rfl
      · rfl
    | some q =>
      dsimp only
      rw [getElem?_set hq]
      by_cases hj : k = j
      · rw [if_pos hj, if_pos hj.symm, ← hj, hq]
        rfl
      · rw [if_neg hj, if_neg (Ne.symm hj)]
  unfold modify
  rw [hqueues]
  unfold sendBy
  split <;> rfl

theorem receive_eq_modify (b : Switchboard) (k : Nat) :
    (b.receive k).2 = b.modify k fun q => (q.receive (b.isAttached k)).2 := by
  rw [modify_eq_sendBy]
  unfold receive sendBy
  split <;> rfl

theorem consumer?_sendBy (b : Switchboard) (k : Nat) {send : Queue → SendResult × Queue}
    (h : ∀ q, (send q).2.consumer = q.consumer) (j : Nat) :
    (b.sendBy k send).2.consumer? j = b.consumer? j := by
  unfold sendBy
  cases hq : b.queues[k]? with
  | none => rfl
  | some q =>
    unfold consumer?
    rw [getElem?_set hq]
    split
    · next hj =>
      subst hj
      rw [hq]
      exact congrArg some (h q)
    · rfl

theorem consumer?_receive (b : Switchboard) (k j : Nat) :
    (b.receive k).2.consumer? j = b.consumer? j := by
  unfold receive
  cases hq : b.queues[k]? with
  | none => rfl
  | some q =>
    unfold consumer?
    rw [getElem?_set hq]
    split
    · next hj =>
      subst hj
      rw [hq]
      exact congrArg some (q.consumer_receive _)
    · rfl

/-- A change of a queue keeps what it keeps of the consumer's end. -/
theorem consumer?_modify {j k : Nat} {f : Queue → Queue} {e : ConsumerEnd}
    (h : b.consumer? k = some e) (hf : j = k → ∀ q, q.consumer = e → (f q).consumer = e) :
    (b.modify j f).consumer? k = some e := by
  obtain ⟨q, hq, hc⟩ := Option.map_eq_some_iff.mp h
  unfold consumer?
  rw [getElem?_modify, hq]
  split
  · next hj => exact congrArg some (hf hj q hc)
  · exact congrArg some hc

theorem consumer?_attach {k : Nat} {e : ConsumerEnd} (h : b.consumer? k = some e) (c : Channel) :
    (b.attach c).2.consumer? k = some e := by
  unfold consumer? at h ⊢
  rw [getElem?_attach]
  split
  · next hk =>
    rw [hk, Array.getElem?_eq_none (Nat.le_refl _)] at h
    cases h
  · exact h

theorem contents_sendBy (k : Nat) {send : Queue → SendResult × Queue}
    {e : ConsumerEvent} (h : Queue.Puts e send) (j : Nat) :
    (b.sendBy k send).2.contents j =
      b.contents j ++ if j = k then (b.sendBy k send).1.adds e else [] := by
  unfold sendBy
  cases hq : b.queues[k]? with
  | none =>
    have hnil : (if j = k then SendResult.refused.adds e else []) = [] := by
      split <;> rfl
    exact ((congrArg _ hnil).trans (List.append_nil _)).symm
  | some q =>
    dsimp only
    rw [contents_set hq]
    by_cases hj : j = k
    · subst hj
      rw [if_pos rfl, if_pos rfl, contents_of_queue hq, h.toList_eq]
    · rw [if_neg hj, if_neg hj, List.append_nil]

theorem contents_receive (k j : Nat) :
    b.contents j = (if j = k then (b.receive k).1.event?.toList else []) ++
      (b.receive k).2.contents j := by
  unfold receive
  cases hq : b.queues[k]? with
  | none =>
    have hnil : (if j = k then Reading.dropped.event?.toList else []) = [] := by
      split <;> rfl
    exact (congrArg (· ++ b.contents j) hnil).symm
  | some q =>
    dsimp only
    rw [contents_set hq]
    by_cases hj : j = k
    · subst hj
      rw [if_pos rfl, if_pos rfl, contents_of_queue hq, ← q.toList_receive]
    · rw [if_neg hj, if_neg hj, List.nil_append]

theorem contents_modify {f : Queue → Queue} (h : ∀ q, (f q).events = q.events) (k j : Nat) :
    (b.modify k f).contents j = b.contents j := by
  unfold contents
  rw [getElem?_modify]
  split
  · cases b.queues[j]? with
    | none => rfl
    | some q => exact congrArg Fifo.toList (h q)
  · rfl

theorem contents_attach (c : Channel) (j : Nat) :
    (b.attach c).2.contents j = b.contents j := by
  unfold contents
  rw [getElem?_attach]
  split
  · next hj =>
    subst hj
    rw [Array.getElem?_eq_none (Nat.le_refl _)]
    rfl
  · rfl

end Switchboard

namespace Exchange

variable {x : Exchange} {k : Nat}

@[simp] theorem board_conclude (x : Exchange) (ticket : Nat) (h : Held)
    (r : SendResult × Switchboard) : (x.conclude ticket h r).2.board = r.2 := by
  obtain ⟨result, board⟩ := r
  cases result <;> rfl

theorem sentOn_conclude (x : Exchange) (ticket : Nat) (h : Held) (r : SendResult × Switchboard)
    (k : Nat) : (x.conclude ticket h r).1.filterMap (Incident.sentOn? k) =
      if k = h.queue then r.1.adds h.call.event else [] := by
  obtain ⟨result, board⟩ := r
  cases result with
  | sent =>
    by_cases hk : k = h.queue
    · simp [conclude, Incident.sentOn?, SendResult.adds, hk]
    · simp [conclude, Incident.sentOn?, hk, Ne.symm hk]
  | refused | waiting => simp [conclude, Incident.sentOn?, SendResult.adds]

theorem readOn_conclude (x : Exchange) (ticket : Nat) (h : Held) (r : SendResult × Switchboard)
    (k : Nat) : (x.conclude ticket h r).1.filterMap (Incident.readOn? k) = [] := by
  obtain ⟨result, board⟩ := r
  cases result <;> rfl

theorem readOn_receive (x : Exchange) (queue k : Nat) :
    (x.act (.receive queue)).1.filterMap (Incident.readOn? k) =
      if k = queue then (x.board.receive queue).1.event?.toList else [] := by
  show ((x.board.receive queue).1.event?.toList.map _).filterMap _ = _
  by_cases hk : k = queue
  · simp [Incident.readOn?, hk, Function.comp_def]
  · simp [Incident.readOn?, hk, Ne.symm hk]

theorem readOn_act {a : Act} (ha : ∀ queue, a ≠ .receive queue) (k : Nat) :
    (x.act a).1.filterMap (Incident.readOn? k) = [] := by
  have ht := x.takes_act a
  generalize x.act a = r at ht
  cases ht with
  | receive queue => exact absurd rfl (ha queue)
  | call ticket byHost call j hh hr r hc =>
    subst hc
    rw [List.filterMap_cons_none rfl, readOn_conclude]
  | retry ticket h hh => exact readOn_conclude ..
  | _ => rfl

/-- A consumer's end stays as it is until it is closed or dropped; one that is dropped stays so. -/
theorem consumer?_act {a : Act} {e : ConsumerEnd} (h : x.board.consumer? k = some e)
    (ha : e = .dropped ∨ a ≠ .close k ∧ a ≠ .drop k) :
    (x.act a).2.board.consumer? k = some e := by
  have ht := x.takes_act a
  generalize x.act a = r at ht
  cases ht with
  | attach c => exact Switchboard.consumer?_attach h c
  | call ticket byHost call j hh hr r hc =>
    subst hc
    rw [board_conclude]
    exact (Switchboard.consumer?_sendBy _ _ (fun q => q.consumer_offer _ _) k).trans h
  | retry ticket held hh =>
    rw [board_conclude]
    exact (Switchboard.consumer?_sendBy _ _ (fun q => q.consumer_retry _ _) k).trans h
  | giveUp ticket held hh =>
    exact Switchboard.consumer?_modify h fun _ q hq => (q.consumer_forget ticket).trans hq
  | receive queue => exact (x.board.consumer?_receive queue k).trans h
  | close queue =>
    refine Switchboard.consumer?_modify h fun hj q hq => ?_
    rcases ha with rfl | ⟨hne, -⟩
    · rw [Queue.close, hq]
      exact hq
    · exact absurd (congrArg Act.close hj) hne
  | drop queue =>
    refine Switchboard.consumer?_modify h fun hj q _ => ?_
    rcases ha with rfl | ⟨-, hne⟩
    · rfl
    · exact absurd (congrArg Act.drop hj) hne
  | detach | busy | unrouted | void => exact h

/-- As long as its consumer has not dropped it, a queue gains the events that are sent on it and
loses those that are read. -/
theorem contents_act (x : Exchange) (a : Act) {k : Nat}
    (h : (x.act a).2.board.consumer? k ≠ some .dropped) :
    x.board.contents k ++ (x.act a).1.filterMap (Incident.sentOn? k) =
      (x.act a).1.filterMap (Incident.readOn? k) ++ (x.act a).2.board.contents k := by
  have silent {b : Switchboard} (hb : b.contents k = x.board.contents k) :
      x.board.contents k ++ [] = [] ++ b.contents k := by
    rw [hb, List.append_nil, List.nil_append]
  have ht := x.takes_act a
  generalize x.act a = r at ht h
  cases ht with
  | attach c => exact silent (Switchboard.contents_attach c k)
  | call ticket byHost call j hh hr r hc =>
    subst hc
    rw [List.filterMap_cons_none rfl, List.filterMap_cons_none rfl, sentOn_conclude,
      readOn_conclude, board_conclude,
      Switchboard.contents_sendBy _ (Queue.puts_offer ticket call.event)]
    rfl
  | retry ticket held hh =>
    rw [sentOn_conclude, readOn_conclude, board_conclude,
      Switchboard.contents_sendBy _ (Queue.puts_retry ticket held.call.event)]
    rfl
  | giveUp ticket held hh =>
    exact silent (Switchboard.contents_modify (fun q => q.events_forget ticket) _ k)
  | receive queue =>
    have hsent (es : List ConsumerEvent) :
        (es.map (Incident.read queue)).filterMap (Incident.sentOn? k) = [] := by
      simp [Incident.sentOn?]
    have hread : ((x.board.receive queue).1.event?.toList.map (Incident.read queue)).filterMap
        (Incident.readOn? k) = _ := x.readOn_receive queue k
    rw [hsent, hread, List.append_nil]
    exact Switchboard.contents_receive queue k
  | close queue => exact silent (Switchboard.contents_modify Queue.events_close queue k)
  | drop queue =>
    refine silent ?_
    -- It is another queue that is dropped, as `k` has still a consumer.
    have hk : (x.board.modify queue Queue.drop).queues[k]? = x.board.queues[k]? := by
      unfold Switchboard.consumer? at h
      rw [Switchboard.getElem?_modify] at h ⊢
      by_cases he : queue = k
      · rw [if_pos he] at h ⊢
        cases hq : x.board.queues[k]? with
        | none => rfl
        | some q => exact absurd (by rw [hq]; rfl) h
      · rw [if_neg he]
    rw [Switchboard.contents, Switchboard.contents, hk]
  | detach | busy | unrouted | void => exact silent rfl

/-- A consumer that has gone does not come back. -/
theorem dropped_run (acts : List Act) (h : x.board.consumer? k = some .dropped) :
    (x.run acts).2.board.consumer? k = some .dropped := by
  induction acts generalizing x with
  | nil => exact h
  | cons a acts ih => exact ih (consumer?_act h (.inl rfl))

/-- The events that have been read on a queue and those that are still on it are, in order, the
events of the calls that were sent on it. -/
theorem contents_run (x : Exchange) (acts : List Act)
    (h : (x.run acts).2.board.consumer? k ≠ some .dropped) :
    x.board.contents k ++ (x.run acts).1.filterMap (Incident.sentOn? k) =
      (x.run acts).1.filterMap (Incident.readOn? k) ++ (x.run acts).2.board.contents k := by
  induction acts generalizing x with
  | nil => exact List.append_nil _
  | cons a acts ih =>
    have hfirst := x.contents_act a (mt (dropped_run acts) h)
    have hrest := ih (x.act a).2 h
    rw [run, List.filterMap_append, List.filterMap_append, ← List.append_assoc, hfirst,
      List.append_assoc, hrest, ← List.append_assoc]

end Exchange

end StreamFanout
