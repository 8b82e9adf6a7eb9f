import StreamFanout.Delivery.Dispatcher

/-!
Draining a queue: a consumer receives again and again, and the waiting calls go on in between. It
comes to an end because the events that are queued or may still be sent become fewer with each
event received, and calls that go on do not add to them. A step of a call sends one event at most,
so the steps that are left bound what may still be sent.
-/

namespace StreamFanout

namespace Dispatcher

/-- Number of events that are queued or may still be sent. -/
def eventsToCome (d : Dispatcher) : Nat :=
  d.board.eventsQueued + sumOf (·.task.stepsLeft) d.waiting

theorem sumOf_replace {ticket : Nat} {w : WaitingCall} {ws : List WaitingCall}
    (h : ws.find? (·.ticket = ticket) = some w) (new : Option WaitingCall) :
    sumOf (·.task.stepsLeft) (WaitingCall.replace ticket new ws) + w.task.stepsLeft =
      sumOf (·.task.stepsLeft) ws + sumOf (·.task.stepsLeft) new.toList := by
  induction ws with
  | nil => simp at h
  | cons v ws ih =>
    rw [WaitingCall.replace]
    by_cases hv : v.ticket = ticket
    · rw [List.find?_cons_of_pos (by simpa using hv)] at h
      obtain rfl := Option.some.inj h
      rw [if_pos hv]
      simp only [sumOf_append, sumOf_cons]
      omega
    · rw [List.find?_cons_of_neg (by simpa using hv)] at h
      have := ih h
      rw [if_neg hv]
      simp only [sumOf_cons]
      omega

theorem stepsLeft_pos (task : Task) : 0 < task.stepsLeft := by
  cases task with
  | pass p => exact p.stepsLeft_pos
  | _ => exact Nat.one_pos

/-- What a task goes on to has fewer steps left. -/
theorem stepsLeft_resume_lt (d : Dispatcher) (task : Task) (answer : Answer) :
    (d.resume task answer).value.1.stepsLeft < task.stepsLeft ∧
      (d.resume task answer).value.2.board = d.board := by
  cases task with
  | push c u => exact ⟨Nat.one_pos, rfl⟩
  | endOfStream c => exact ⟨Nat.one_pos, rfl⟩
  | pass p =>
    have h := d.fanout.stepsLeft_resume_lt p answer
    rw [resume, Logged.value_bind]
    generalize (d.fanout.resume p answer).value = r at h
    obtain ⟨outcome, fanout⟩ := r
    cases outcome with
    | suspended next => exact ⟨h, rfl⟩
    | ended result => exact ⟨h, rfl⟩

theorem eventsQueued_attempt_le (d : Dispatcher) (ticket : Nat) (call : SinkCall)
    (queue : Option Nat) :
    (d.attempt ticket call queue).value.2.eventsQueued +
        (d.attempt ticket call queue).value.1.toCome ≤ d.board.eventsQueued + 1 := by
  cases queue with
  | none => exact d.board.eventsQueued_issue_le ticket call
  | some queue => exact d.board.eventsQueued_reissue_le ticket queue call

/-- A step uses itself up, and adds at most one event for it. -/
theorem stepsLeft_step_le (d : Dispatcher) (ticket : Nat) (queue : Option Nat) (task : Task) :
    (d.step ticket queue task).value.2.board.eventsQueued +
        (d.step ticket queue task).value.1.stepsLeft ≤ d.board.eventsQueued + task.stepsLeft := by
  unfold step
  cases task.call? with
  | none =>
    obtain ⟨hlt, hboard⟩ := d.stepsLeft_resume_lt task .accepted
    show (d.resume task .accepted).value.2.board.eventsQueued +
      (d.resume task .accepted).value.1.stepsLeft ≤ _
    rw [hboard]
    omega
  | some call =>
    have h := d.eventsQueued_attempt_le ticket call queue
    simp only [Logged.value_bind]
    generalize (d.attempt ticket call queue).value = r at h
    obtain ⟨issue, board⟩ := r
    cases issue with
    | waits queue =>
      simp only [Issue.toCome] at h
      show board.eventsQueued + task.stepsLeft ≤ _
      omega
    | answered answer =>
      obtain ⟨hlt, hboard⟩ := stepsLeft_resume_lt { d with board } task answer
      simp only [Issue.toCome, Nat.add_zero] at h
      show (resume { d with board } task answer).value.2.board.eventsQueued +
        (resume { d with board } task answer).value.1.stepsLeft ≤ _
      rw [hboard]
      show board.eventsQueued + _ ≤ _
      omega

theorem stepsLeft_proceed_le (d : Dispatcher) (ticket limit : Nat) (queue : Option Nat)
    (task : Task) :
    (d.proceed ticket limit queue task).value.2.board.eventsQueued +
        (d.proceed ticket limit queue task).value.1.stepsLeft ≤
      d.board.eventsQueued + task.stepsLeft := by
  induction limit generalizing d queue task with
  | zero => exact Nat.le_refl _
  | succ limit ih =>
    have h := d.stepsLeft_step_le ticket queue task
    rw [proceed, Logged.value_bind]
    generalize (d.step ticket queue task).value = r at h
    obtain ⟨progress, d'⟩ := r
    cases progress with
    | finished result => exact h
    | waiting queue' task' =>
      cases queue' with
      | some k => exact h
      | none => exact Nat.le_trans (ih d' none task') h

theorem eventsToCome_poll_le (d : Dispatcher) (ticket : Nat) (limit : Option Nat) :
    (d.poll ticket limit).value.2.eventsToCome ≤ d.eventsToCome := by
  unfold poll
  split
  · exact Nat.le_refl _
  · next w hw =>
    have hp := d.stepsLeft_proceed_le ticket (limit.getD w.task.stepsLeft) w.queue w.task
    simp only [Logged.value_bind]
    generalize (d.proceed _ _ _ _).value = r at hp
    obtain ⟨progress, next⟩ := r
    cases progress with
    | finished result =>
      have hr := sumOf_replace hw none
      simp only [TaskProgress.stepsLeft, Option.toList_none, sumOf_nil] at hp hr
      simp only [eventsToCome, Logged.value_pure]
      omega
    | waiting queue task =>
      have hr := sumOf_replace hw (some ⟨ticket, queue, task⟩)
      simp only [TaskProgress.stepsLeft, Option.toList_some, sumOf_cons, sumOf_nil] at hp hr
      simp only [eventsToCome, Logged.value_pure]
      omega

theorem eventsToCome_pollEach_le (d : Dispatcher) (tickets : List Nat) :
    (d.pollEach tickets).value.2.eventsToCome ≤ d.eventsToCome := by
  induction tickets generalizing d with
  | nil => exact Nat.le_refl _
  | cons ticket tickets ih =>
    exact Nat.le_trans (ih (d.poll ticket).value.2) (d.eventsToCome_poll_le ticket none)

theorem eventsToCome_settle_le (d : Dispatcher) :
    d.settle.value.2.eventsToCome ≤ d.eventsToCome := by
  fun_induction settle d with
  | case1 d step h ih =>
    exact Nat.le_trans ih (d.eventsToCome_pollEach_le _)
  | case2 d step h => exact d.eventsToCome_pollEach_le _

theorem eventsToCome_receive_lt {d : Dispatcher} {queue : Nat} {e : ConsumerEvent}
    (h : (d.receive queue).1 = .event e) : (d.receive queue).2.eventsToCome < d.eventsToCome :=
  Nat.add_lt_add_right (Switchboard.eventsQueued_receive_lt h) _

structure Drained where
  readings : List Reading
  completions : List Completion
  dispatcher : Dispatcher

/-- Receives again and again, settling after each reading, until there is no event. -/
def drain (d : Dispatcher) (queue : Nat) : Logged Drained :=
  let received := d.receive queue
  let step := received.2.settle
  match _h : received.1 with
  | .event e => do
    Logged.emitAll step.log
    let rest ← drain step.value.2 queue
    pure { rest with
      readings := .event e :: rest.readings
      completions := step.value.1 ++ rest.completions }
  | reading => ⟨⟨[reading], step.value.1, step.value.2⟩, step.log⟩
termination_by d.eventsToCome
decreasing_by
  exact Nat.lt_of_le_of_lt (eventsToCome_settle_le _) (eventsToCome_receive_lt _h)

end Dispatcher

end StreamFanout
