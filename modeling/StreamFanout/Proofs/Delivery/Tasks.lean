import StreamFanout.Delivery.Dispatcher

/-!
The list of the calls that wait. A task that has been started is over or waits under the next
ticket; a call that is polled is over or waits where it was; and no task touches the other calls.
-/
namespace StreamFanout

namespace WaitingCall

variable {ticket : Nat} {new : Option WaitingCall}

theorem find?_replace (hn : ∀ w ∈ new, w.ticket = ticket) {w : WaitingCall}
    {ws : List WaitingCall} (hd : (ws.map WaitingCall.ticket).Nodup)
    (hw : ws.find? (·.ticket = ticket) = some w) (t : Nat) :
    (replace ticket new ws).find? (·.ticket = t) =
      if t = ticket then new else ws.find? (·.ticket = t) := by
  have hnew : new.toList.find? (·.ticket = t) = if t = ticket then new else none := by
    cases new with
    | none => simp
    | some v =>
      have hv : v.ticket = ticket := hn v rfl
      by_cases ht : t = ticket
      · simp [hv, ht]
      · simp [hv, ht, Ne.symm ht]
  induction ws with
  | nil => cases hw
  | cons v ws ih =>
    rw [List.map_cons, List.nodup_cons] at hd
    by_cases hv : v.ticket = ticket
    · rw [replace, if_pos hv, List.find?_append, hnew]
      by_cases ht : t = ticket
      · have habsent : ws.find? (·.ticket = t) = none := by
          refine List.find?_eq_none.mpr fun u hu he => hd.1 ?_
          rw [hv, ← ht, ← of_decide_eq_true he]
          exact List.mem_map_of_mem hu
        rw [if_pos ht, if_pos ht, habsent, Option.or_none]
      · rw [if_neg ht, if_neg ht, Option.none_or,
          List.find?_cons_of_neg (by simpa [hv] using Ne.symm ht)]
    · rw [List.find?_cons_of_neg (by simpa using hv)] at hw
      rw [replace, if_neg hv]
      by_cases hvt : v.ticket = t
      · have ht : t ≠ ticket := fun he => hv (hvt.trans he)
        rw [List.find?_cons_of_pos (by simpa using hvt), if_neg ht,
          List.find?_cons_of_pos (by simpa using hvt)]
      · rw [List.find?_cons_of_neg (by simpa using hvt), ih hd.2 hw]
        congr 1
        exact (List.find?_cons_of_neg (by simpa using hvt)).symm

theorem tickets_replace (hn : ∀ w ∈ new, w.ticket = ticket) (ws : List WaitingCall) :
    ((replace ticket new ws).map WaitingCall.ticket).Sublist (ws.map WaitingCall.ticket) := by
  induction ws with
  | nil => exact List.Sublist.refl _
  | cons v ws ih =>
    rw [replace]
    split
    · next hv =>
      cases new with
      | none => exact List.sublist_cons_self _ _
      | some w =>
        have hsame : ((some w).toList ++ ws).map WaitingCall.ticket =
            (v :: ws).map WaitingCall.ticket := by
          rw [Option.toList_some, List.singleton_append, List.map_cons, List.map_cons, hn w rfl, hv]
        exact hsame ▸ List.Sublist.refl _
    · exact ih.cons_cons _

theorem mem_replace {w : WaitingCall} {ws : List WaitingCall}
    (hd : (ws.map WaitingCall.ticket).Nodup) (hw : w ∈ replace ticket new ws) :
    w ∈ new ∨ w ∈ ws ∧ w.ticket ≠ ticket := by
  induction ws with
  | nil => cases hw
  | cons v ws ih =>
    rw [List.map_cons, List.nodup_cons] at hd
    rw [replace] at hw
    split at hw
    · next hv =>
      rcases List.mem_append.mp hw with hw | hw
      · exact .inl (Option.mem_toList.mp hw)
      · refine .inr ⟨List.mem_cons_of_mem v hw, fun he => hd.1 ?_⟩
        rw [hv, ← he]
        exact List.mem_map_of_mem hw
    · next hv =>
      rcases List.mem_cons.mp hw with rfl | hw
      · exact .inr ⟨List.mem_cons_self, hv⟩
      · exact (ih hd.2 hw).imp_right fun ⟨hm, hne⟩ => ⟨List.mem_cons_of_mem v hm, hne⟩

theorem replace_self {w : WaitingCall} {ws : List WaitingCall}
    (h : ws.find? (·.ticket = ticket) = some w) : replace ticket (some w) ws = ws := by
  induction ws with
  | nil => rfl
  | cons v ws ih =>
    rw [replace]
    split
    · next hv =>
      rw [List.find?_cons_of_pos (by simpa using hv)] at h
      rw [Option.some.inj h]
      rfl
    · next hv =>
      rw [List.find?_cons_of_neg (by simpa using hv)] at h
      rw [ih h]

end WaitingCall

namespace Dispatcher

/-- A step of a task leaves the list to those who started or polled it. -/
theorem waiting_step (d : Dispatcher) (ticket : Nat) (queue : Option Nat) (task : Task) :
    (d.step ticket queue task).value.2.waiting = d.waiting ∧
      (d.step ticket queue task).value.2.nextTicket = d.nextTicket := by
  have hresume (d : Dispatcher) (answer : Answer) :
      (d.resume task answer).value.2.waiting = d.waiting ∧
        (d.resume task answer).value.2.nextTicket = d.nextTicket := by
    cases task with
    | push | endOfStream => exact ⟨rfl, rfl⟩
    | pass p =>
      rw [resume, Logged.value_bind]
      split <;> exact ⟨rfl, rfl⟩
  rw [step]
  cases task.call? with
  | none => exact hresume d .accepted
  | some call =>
    rw [Logged.value_bind]
    split
    · exact ⟨rfl, rfl⟩
    · next answer board _ => exact hresume { d with board } answer

theorem waiting_proceed (d : Dispatcher) (ticket limit : Nat) (queue : Option Nat) (task : Task) :
    (d.proceed ticket limit queue task).value.2.waiting = d.waiting ∧
      (d.proceed ticket limit queue task).value.2.nextTicket = d.nextTicket := by
  induction limit generalizing d queue task with
  | zero => exact ⟨rfl, rfl⟩
  | succ limit ih =>
    have hstep := d.waiting_step ticket queue task
    rw [proceed, Logged.value_bind]
    split
    · next task' d' heq =>
      rw [heq] at hstep
      have hrest := ih d' none task'
      exact ⟨hrest.1.trans hstep.1, hrest.2.trans hstep.2⟩
    · exact hstep

/-- How a start ends, by how far its task has come. -/
inductive Enters (d : Dispatcher) : TaskProgress × Dispatcher → Started × Dispatcher → Prop
  | finished (result : CallResult) (e : Dispatcher) (hw : e.waiting = d.waiting)
      (hn : e.nextTicket = d.nextTicket) : d.Enters (.finished result, e) (.finished result, e)
  | waiting (queue : Option Nat) (task : Task) (e : Dispatcher) (hw : e.waiting = d.waiting) :
      d.Enters (.waiting queue task, e) (.pending d.nextTicket, { e with
        waiting := d.waiting ++ [⟨d.nextTicket, queue, task⟩]
        nextTicket := d.nextTicket + 1 })

theorem enters_start (d : Dispatcher) (task : Task) (limit : Option Nat) :
    d.Enters (d.proceed d.nextTicket (limit.getD task.stepsLeft) none task).value
      (d.start task limit).value := by
  have hkeeps := d.waiting_proceed d.nextTicket (limit.getD task.stepsLeft) none task
  simp only [start, Logged.value_bind]
  generalize (d.proceed _ _ _ _).value = r at hkeeps ⊢
  obtain ⟨progress, e⟩ := r
  cases progress with
  | finished result => exact .finished result e hkeeps.1 hkeeps.2
  | waiting queue task' => exact .waiting queue task' e hkeeps.1

/-- How a poll of a call that waits ends, by how far its task has come. -/
inductive Polls (d : Dispatcher) (ticket : Nat) :
    TaskProgress × Dispatcher → Option CallResult × Dispatcher → Prop
  | finished (result : CallResult) (e : Dispatcher) (hw : e.waiting = d.waiting)
      (hn : e.nextTicket = d.nextTicket) :
      d.Polls ticket (.finished result, e) (some result, { e with
        waiting := WaitingCall.replace ticket none d.waiting })
  | waiting (queue : Option Nat) (task : Task) (e : Dispatcher) (hw : e.waiting = d.waiting)
      (hn : e.nextTicket = d.nextTicket) : d.Polls ticket (.waiting queue task, e) (none, { e with
        waiting := WaitingCall.replace ticket (some ⟨ticket, queue, task⟩) d.waiting })

theorem polls_poll {d : Dispatcher} {ticket : Nat} {w : WaitingCall}
    (hw : d.waiting.find? (·.ticket = ticket) = some w) (limit : Option Nat) :
    d.Polls ticket (d.proceed ticket (limit.getD w.task.stepsLeft) w.queue w.task).value
      (d.poll ticket limit).value := by
  have hkeeps := d.waiting_proceed ticket (limit.getD w.task.stepsLeft) w.queue w.task
  simp only [poll, hw, Logged.value_bind]
  generalize (d.proceed _ _ _ _).value = r at hkeeps ⊢
  obtain ⟨progress, e⟩ := r
  cases progress with
  | finished result => exact .finished result e hkeeps.1 hkeeps.2
  | waiting queue task => exact .waiting queue task e hkeeps.1 hkeeps.2

end Dispatcher

end StreamFanout
