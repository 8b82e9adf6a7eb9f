import StreamFanout.Proofs.Delivery.Lines

/-!
What wakes a call that waits: a slot that is reserved for it, or a consumer that goes away. A call
that has been polled and still waits is asleep, and what other calls do does not wake it.
-/
namespace StreamFanout

namespace Queue

variable {q : Queue} {ticket : Nat} {e : ConsumerEvent}

/-- A send that still waits at a queue was not woken there. -/
def Asleep (q : Queue) (ticket : Nat) : Prop :=
  q.consumer = .listening ∧ ticket ∉ q.granted

theorem asleep_retry (h : (q.retry ticket e).1 = .waiting) :
    (q.retry ticket e).2.Asleep ticket := by
  unfold Queue.retry at h ⊢
  split at h
  · cases h
  · next hl =>
    split at h
    · cases h
    · next hg =>
      rw [if_neg hl, if_neg hg]
      exact ⟨Classical.not_not.mp hl, hg⟩

theorem asleep_offer (ht : ticket ∉ q.granted) (h : (q.offer ticket e).1 = .waiting) :
    (q.offer ticket e).2.Asleep ticket := by
  unfold Queue.offer at h ⊢
  split at h
  · cases h
  · next hl =>
    split at h
    · cases h
    · next hf =>
      rw [if_neg hl, if_neg hf]
      exact ⟨Classical.not_not.mp hl, ht⟩

theorem granted_offer (q : Queue) (ticket : Nat) (e : ConsumerEvent) :
    (q.offer ticket e).2.granted = q.granted := by
  unfold Queue.offer
  split
  · rfl
  · split <;> rfl

theorem granted_retry_subset (q : Queue) (ticket : Nat) (e : ConsumerEvent) :
    (q.retry ticket e).2.granted ⊆ q.granted := by
  unfold Queue.retry
  split
  · exact List.erase_subset
  · split
    · exact List.erase_subset
    · exact List.Subset.refl _

end Queue

namespace Exchange

variable {x : Exchange} {capacity ticket t : Nat} {h : Held}

/-- The call under a ticket has not been woken since it was last polled. -/
def Asleep (x : Exchange) (ticket : Nat) : Prop :=
  ∀ h, x.held ticket = some h → ∀ q, x.board.queues[h.queue]? = some q → q.Asleep ticket

theorem asleep_of_free (hn : x.held ticket = none) : x.Asleep ticket :=
  fun _ hh => by cases hn.symm.trans hh

theorem getElem?_sendBy {b : Switchboard} {k j : Nat} {send : Queue → SendResult × Queue}
    {p : Queue} (hp : (b.sendBy k send).2.queues[j]? = some p) :
    b.queues[j]? = some p ∧ j ≠ k ∨
      j = k ∧ ∃ q, b.queues[k]? = some q ∧ p = (send q).2 ∧ (b.sendBy k send).1 = (send q).1 := by
  unfold Switchboard.sendBy at hp ⊢
  cases hq : b.queues[k]? with
  | none =>
    rw [hq] at hp
    refine .inl ⟨hp, ?_⟩
    rintro rfl
    cases hq.symm.trans hp
  | some q =>
    rw [hq] at hp
    have hp : (b.queues.setIfInBounds k (send q).2)[j]? = some p := hp
    rw [Switchboard.getElem?_set hq] at hp
    split at hp
    · next hj => exact .inr ⟨hj, q, rfl, (Option.some.inj hp).symm, rfl⟩
    · next hj => exact .inl ⟨hp, hj⟩

/-- A call that still waits after an attempt has not been woken. -/
theorem asleep_conclude (x : Exchange) (h : Held) {b : Switchboard}
    {send : Queue → SendResult × Queue}
    (hsend : ∀ q, b.queues[h.queue]? = some q → (send q).1 = .waiting → (send q).2.Asleep ticket) :
    (x.conclude ticket h (b.sendBy h.queue send)).2.Asleep ticket := by
  intro g hg p hp
  rw [held_conclude, Function.update_self] at hg
  split at hg
  · next hw =>
    cases hg
    rw [board_conclude] at hp
    rcases getElem?_sendBy hp with ⟨-, hne⟩ | ⟨-, q, hq, rfl, hr⟩
    · exact absurd rfl hne
    · exact hsend q hq (hr.symm.trans hw)
  · cases hg

/-- An attempt of one call wakes no other. -/
theorem Asleep.conclude (ht : x.Asleep t) (hne : t ≠ ticket) (h : Held) {k : Nat}
    {send : Queue → SendResult × Queue} (hc : ∀ q, (send q).2.consumer = q.consumer)
    (hg : ∀ q, (send q).2.granted ⊆ q.granted) :
    (x.conclude ticket h (x.board.sendBy k send)).2.Asleep t := by
  intro g hh p hp
  rw [held_conclude, Function.update_of_ne hne] at hh
  rw [board_conclude] at hp
  rcases getElem?_sendBy hp with ⟨hp, -⟩ | ⟨hj, q, hq, rfl, -⟩
  · exact ht g hh p hp
  · obtain ⟨hl, hn⟩ := ht g hh q (hj ▸ hq)
    exact ⟨(hc q).trans hl, fun hmem => hn (hg q hmem)⟩

theorem Asleep.hold (ht : x.Asleep t) (hne : t ≠ ticket) (h : Held) :
    (x.hold ticket h).Asleep t :=
  fun g hg => ht g ((Function.update_of_ne hne ..).symm.trans hg)

/-- Neither does an attempt that is its first. -/
theorem Asleep.act (ht : x.Asleep t) (hne : t ≠ ticket) {a : Act} (ha : a.Attempts ticket) :
    (x.act a).2.Asleep t := by
  have hx := x.takes_act a
  generalize x.act a = r at hx
  cases hx with
  | call _ byHost call k hh hr r hc =>
    subst hc
    rw [← ha] at hne
    exact (ht.hold hne _).conclude hne _ (fun q => q.consumer_offer _ _)
      fun q => by rw [q.granted_offer]; exact List.Subset.refl _
  | retry _ h hh =>
    rw [← ha] at hne
    exact ht.conclude hne h (fun q => q.consumer_retry _ _) fun q => q.granted_retry_subset _ _
  | busy | void | unrouted => exact ht
  | _ => cases ha

/-- A call that has been polled waits asleep, or is over. -/
theorem asleep_retry (x : Exchange) (ticket : Nat) : (x.act (.retry ticket)).2.Asleep ticket := by
  cases hh : x.held ticket with
  | none =>
    simp only [act, hh]
    exact asleep_of_free hh
  | some h =>
    simp only [act, hh]
    exact x.asleep_conclude h fun q _ => Queue.asleep_retry

theorem Lined.asleep_call (hx : x.Lined capacity) (hs : x.Asleep ticket) (byHost : Bool)
    (call : SinkCall) : (x.act (.call ticket byHost call)).2.Asleep ticket := by
  have ht := x.takes_act (.call ticket byHost call)
  generalize x.act (.call ticket byHost call) = r at ht
  cases ht with
  | busy => exact hs
  | unrouted _ _ _ hh hr => exact asleep_of_free hh
  | call _ _ _ k hh hr r hc =>
    subst hc
    refine asleep_conclude _ ⟨x.begun, k, byHost, call⟩ fun q hq => Queue.asleep_offer fun hg => ?_
    obtain ⟨g, hg, -⟩ := ((hx.queues k q hq).mem_iff ticket).mp (List.mem_append_left _ hg)
    cases hh.symm.trans hg
  | void a _ ha => rcases ha with ha | ha <;> cases ha

theorem Lined.run (hx : x.Lined capacity) (acts : List Act) : (x.run acts).2.Lined capacity := by
  induction acts generalizing x with
  | nil => exact hx
  | cons a acts ih => exact ih (hx.act a)

/-- Attempts at one call wake no call that is asleep, and leave this one asleep if it was. -/
theorem Lined.asleep_run (hx : x.Lined capacity) (ht : x.Asleep t) {acts : List Act}
    (ha : ∀ a ∈ acts, a.Attempts ticket) : (x.run acts).2.Asleep t := by
  induction acts generalizing x with
  | nil => exact ht
  | cons a acts ih =>
    refine ih (hx.act a) ?_ fun b hb => ha b (List.mem_cons_of_mem _ hb)
    have hattempt := ha a List.mem_cons_self
    by_cases hne : t = ticket
    · subst hne
      cases a with
      | call _ byHost call => cases hattempt; exact hx.asleep_call ht byHost call
      | retry _ => cases hattempt; exact x.asleep_retry _
      | _ => cases hattempt
    · exact ht.act hne hattempt

end Exchange

end StreamFanout
