import StreamFanout.Proofs.Alike
import StreamFanout.Proofs.Delivery.Setup
import StreamFanout.Proofs.Delivery.Tasks

/-!
The stream that a dispatcher takes in and its channels. Calls of the host add units and change the
channels, an end of stream begins the next stream, and calls on the sink touch neither.
-/
namespace StreamFanout.Dispatcher

variable {d : Dispatcher}

/-- The steps of a task leave the intake of the host as it is. -/
theorem intake_step (d : Dispatcher) (ticket : Nat) (queue : Option Nat) (task : Task) :
    (d.step ticket queue task).value.2.fanout.intake = d.fanout.intake := by
  have resumed (d : Dispatcher) (answer : Answer) :
      (d.resume task answer).value.2.fanout.intake = d.fanout.intake := by
    cases task with
    | push | endOfStream => rfl
    | pass p =>
      rw [resume, Logged.value_bind]
      rcases d.fanout.resume_cases p answer with
        ⟨p', -, hv⟩ | ⟨plan, lanes, -, hv⟩ | ⟨gops, -, hv⟩ <;> rw [hv] <;> rfl
  rw [step]
  cases task.call? with
  | none => exact resumed d .accepted
  | some call =>
    rw [Logged.value_bind]
    split
    · rfl
    · next answer board _ => exact resumed { d with board } answer

theorem intake_proceed (d : Dispatcher) (ticket limit : Nat) (queue : Option Nat) (task : Task) :
    (d.proceed ticket limit queue task).value.2.fanout.intake = d.fanout.intake := by
  induction limit generalizing d queue task with
  | zero => rfl
  | succ limit ih =>
    have hstep := d.intake_step ticket queue task
    rw [proceed, Logged.value_bind]
    split
    · next task' d' heq =>
      rw [heq] at hstep
      exact (ih d' none task').trans hstep
    · exact hstep

theorem intake_start (d : Dispatcher) (task : Task) (limit : Option Nat) :
    (d.start task limit).value.2.fanout.intake = d.fanout.intake := by
  have h := d.intake_proceed d.nextTicket (limit.getD task.stepsLeft) none task
  have henters := d.enters_start task limit
  generalize (d.proceed _ _ _ _).value = r at h henters
  generalize (d.start task limit).value = s at henters ⊢
  cases henters <;> exact h

theorem intake_poll (d : Dispatcher) (ticket : Nat) (limit : Option Nat) :
    (d.poll ticket limit).value.2.fanout.intake = d.fanout.intake := by
  cases hw : d.waiting.find? (·.ticket = ticket) with
  | none =>
    rw [poll, hw]
    rfl
  | some w =>
    have h := d.intake_proceed ticket (limit.getD w.task.stepsLeft) w.queue w.task
    have hpolls := polls_poll hw limit
    generalize (d.proceed _ _ _ _).value = r at h hpolls
    generalize (d.poll ticket limit).value = s at hpolls ⊢
    cases hpolls <;> exact h

theorem intake_cancel (d : Dispatcher) (ticket : Nat) :
    (d.cancel ticket).2.fanout.intake = d.fanout.intake := by
  unfold cancel
  split <;> rfl

theorem live_of_intake {f g : Fanout} (h : g.intake = f.intake) : g.live = f.live := by
  simp only [Fanout.intake, Prod.mk.injEq] at h
  rw [Fanout.live, Fanout.live, h.2.1]

/-- The channels are told apart, and `us` was taken in since the last end of stream. -/
structure Open (us : List AccessUnit) (d : Dispatcher) : Prop where
  nodup : d.fanout.live.Nodup
  groups : d.fanout.grouping.Groups (us.map AccessUnit.marked)

theorem open_fresh (config : Config) (capacity : Nat) : (fresh config capacity).Open [] where
  nodup := List.nodup_nil
  groups := Grouping.groups_empty

theorem Open.congr {us : List AccessUnit} {e : Dispatcher} (h : d.Open us)
    (hi : e.fanout.intake = d.fanout.intake) : e.Open us := by
  refine ⟨live_of_intake hi ▸ h.nodup, ?_⟩
  simp only [Fanout.intake, Prod.mk.injEq] at hi
  exact hi.2.2.1 ▸ h.groups

/-- An end of stream leaves the channels as they are, and begins the next stream. -/
theorem fanout_endStream (d : Dispatcher) (limit : Option Nat) :
    (d.endStream limit).value.2.fanout.roster = d.fanout.roster ∧
      (d.endStream limit).value.2.fanout.grouping = {} := by
  rw [endStream, Logged.value_bind, Fanout.endStream_value]
  cases (Fanout.distribute d.fanout.grouping.groups d.fanout.live).value with
  | ended result => exact ⟨rfl, rfl⟩
  | suspended p =>
    have hi := intake_start { d with fanout := { d.fanout with grouping := {} } } (.pass p) limit
    simp only [Fanout.intake, Prod.mk.injEq] at hi
    exact ⟨hi.2.1, hi.2.2.1⟩

theorem Open.operate {us : List AccessUnit} (h : d.Open us) (op : Operation) :
    (d.operate op).value.2.Open (op.step?.elim us (Step.onto us)) := by
  cases op with
  | call c =>
    have hgroups := (d.fanout.perform_absorbs c).groups _ h.groups
    rw [← List.map_append] at hgroups
    exact ⟨Fanout.nodup_live_perform h.nodup c, hgroups⟩
  | endStream limit =>
    obtain ⟨hr, hg⟩ := d.fanout_endStream limit
    refine ⟨?_, ?_⟩
    · show (d.endStream limit).value.2.fanout.live.Nodup
      rw [Fanout.live, hr]
      exact h.nodup
    · show (d.endStream limit).value.2.fanout.grouping.Groups _
      rw [hg]
      exact Grouping.groups_empty
  | push c u => exact h.congr (d.intake_start _ _)
  | sendEnd c => exact h.congr (d.intake_start _ _)
  | poll ticket limit => exact h.congr (d.intake_poll ticket limit)
  | cancel ticket => exact h.congr (d.intake_cancel ticket)
  | attach | detach | receive | close | drop => exact ⟨h.nodup, h.groups⟩

/-- What is buffered after a run are the keyframe runs of its open stream. -/
theorem open_operateAll (config : Config) (capacity : Nat) (ops : List Operation) :
    ((fresh config capacity).operateAll ops).value.2.Open
      (openStream (ops.filterMap Operation.step?)) := by
  have run (d : Dispatcher) (us : List AccessUnit) (h : d.Open us) : (d.operateAll ops).value.2.Open
      ((ops.filterMap Operation.step?).foldl Step.onto us) := by
    induction ops generalizing d us with
    | nil => exact h
    | cons op ops ih =>
      have hnext := ih _ _ (h.operate op)
      cases hs : op.step? with
      | none =>
        rw [hs] at hnext
        rwa [List.filterMap_cons_none hs]
      | some s =>
        rw [hs] at hnext
        rwa [List.filterMap_cons_some hs]
  exact run _ [] (open_fresh config capacity)

/-- Only its release takes a channel off the list of live ones. -/
theorem mem_live_operate {c : Channel} (hc : c ∈ d.fanout.live)
    {op : Operation} (hop : op ≠ .call (.release c)) : c ∈ (d.operate op).value.2.fanout.live := by
  have same {e : Dispatcher} (hi : e.fanout.intake = d.fanout.intake) : c ∈ e.fanout.live :=
    live_of_intake hi ▸ hc
  cases op with
  | call call => exact Fanout.mem_live_perform hc fun he => hop (congrArg Operation.call he)
  | endStream limit =>
    show c ∈ (d.endStream limit).value.2.fanout.live
    rw [Fanout.live, (d.fanout_endStream limit).1]
    exact hc
  | push e u => exact same (d.intake_start _ _)
  | sendEnd e => exact same (d.intake_start _ _)
  | poll ticket limit => exact same (d.intake_poll ticket limit)
  | cancel ticket => exact same (d.intake_cancel ticket)
  | attach | detach | receive | close | drop => exact hc

end StreamFanout.Dispatcher
