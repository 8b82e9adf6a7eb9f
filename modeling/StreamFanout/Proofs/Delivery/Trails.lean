import StreamFanout.Proofs.Delivery.Attended

/-!
The trail of a pass through a run: what its own operations put on each queue, and its result. On a
channel that is left alone, the trail of a pass that has ended is all that was due there.
-/
namespace StreamFanout

def Operation.polled? : Operation → Option Nat
  | .poll ticket _ => some ticket
  | _ => none

theorem Operation.polled?_eq_some {op : Operation} {ticket : Nat} (h : op.polled? = some ticket) :
    ∃ limit, op = .poll ticket limit := by
  cases op with
  | poll t limit =>
    cases h
    exact ⟨limit, rfl⟩
  | _ => cases h

namespace Dispatcher

variable {d : Dispatcher} {ticket : Nat} {kept : Channel → Prop} {gops : List Gop}
  {plan : Partition}

/-- What was put on each queue on the way from `d` to `e`, where nothing was taken away. -/
def added (d e : Dispatcher) (k : Nat) : List ConsumerEvent :=
  (e.board.contents k).drop (d.board.contents k).length

/-- What the polls of a call put on each queue in a run, and the result of the call if a poll brings
it to its end. -/
def trail (d : Dispatcher) (ticket : Nat) :
    List Operation → (Nat → List ConsumerEvent) × Option CallResult
  | [] => (fun _ => [], none)
  | op :: ops =>
    let next := (d.operate op).value
    let rest := next.2.trail ticket ops
    if op.polled? = some ticket then
      match next.1 with
      | .polled (some result) => (d.added next.2, some result)
      | _ => (fun k => d.added next.2 k ++ rest.1 k, rest.2)
    else rest

/-- An end of stream that goes on for some steps, and then the trail of its pass if it is not
over. -/
def passTrail (d : Dispatcher) (limit : Option Nat) (ops : List Operation) :
    (Nat → List ConsumerEvent) × Option CallResult :=
  let begun := (d.endStream limit).value
  match begun.1 with
  | .finished result => (d.added begun.2, some result)
  | .pending ticket =>
    let rest := begun.2.trail ticket ops
    (fun k => d.added begun.2 k ++ rest.1 k, rest.2)

theorem passTrail_finished {limit : Option Nat} {result : CallResult}
    (h : (d.endStream limit).value.1 = .finished result) (ops : List Operation) :
    d.passTrail limit ops = (d.added (d.endStream limit).value.2, some result) := by
  simp only [passTrail, h]

theorem passTrail_pending {limit : Option Nat}
    (h : (d.endStream limit).value.1 = .pending ticket) (ops : List Operation) :
    d.passTrail limit ops = (fun k => d.added (d.endStream limit).value.2 k ++
      ((d.endStream limit).value.2.trail ticket ops).1 k,
      ((d.endStream limit).value.2.trail ticket ops).2) := by
  simp only [passTrail, h]

theorem added_of_contents {e : Dispatcher} {k : Nat} {put : List ConsumerEvent}
    (h : e.board.contents k = d.board.contents k ++ put) : d.added e k = put := by
  rw [added, h, List.drop_left]

/-- What other operations leave of a call under a ticket that has been given out. -/
structure Leaves (ticket : Nat) (d e : Dispatcher) : Prop where
  find?_eq : e.waiting.find? (·.ticket = ticket) = d.waiting.find? (·.ticket = ticket)
  nextTicket_le : d.nextTicket ≤ e.nextTicket

theorem Leaves.start (fanout : Fanout) (ht : ticket < d.nextTicket) (task : Task)
    (limit : Option Nat) :
    Leaves ticket d (Dispatcher.start { d with fanout } task limit).value.2 := by
  have henters := Dispatcher.enters_start { d with fanout } task limit
  generalize (proceed _ _ _ _ _).value = r at henters
  generalize (Dispatcher.start { d with fanout } task limit).value = s at henters ⊢
  cases henters with
  | finished result e hw hn => exact ⟨congrArg (List.find? _) hw, Nat.le_of_eq hn.symm⟩
  | waiting queue task' e =>
    refine ⟨?_, Nat.le_succ _⟩
    have hne : ¬d.nextTicket = ticket := Nat.ne_of_gt ht
    show (d.waiting ++ [(⟨d.nextTicket, queue, task'⟩ : WaitingCall)]).find? _ = _
    rw [List.find?_append, List.find?_cons_of_neg (by simpa using hne)]
    exact Option.or_none

theorem leaves_operate (hn : (d.waiting.map WaitingCall.ticket).Nodup) (ht : ticket < d.nextTicket)
    {op : Operation} (hp : op.polled? ≠ some ticket) (hc : op ≠ .cancel ticket) :
    Leaves ticket d (d.operate op).value.2 := by
  have replaced {t : Nat} {w : WaitingCall} (hw : d.waiting.find? (·.ticket = t) = some w)
      (hne : ticket ≠ t) {new : Option WaitingCall} (hnew : ∀ v ∈ new, v.ticket = t) :
      (WaitingCall.replace t new d.waiting).find? (·.ticket = ticket) =
        d.waiting.find? (·.ticket = ticket) := by
    rw [WaitingCall.find?_replace hnew hn hw, if_neg hne]
  cases op with
  | endStream limit =>
    show Leaves ticket d (d.endStream limit).value.2
    simp only [endStream, Logged.value_bind]
    cases d.fanout.endStream.value with
    | mk outcome fanout =>
      cases outcome with
      | ended result => exact ⟨rfl, Nat.le_refl _⟩
      | suspended p => exact Leaves.start fanout ht (.pass p) limit
  | push c u => exact Leaves.start d.fanout ht (.push c u) none
  | sendEnd c => exact Leaves.start d.fanout ht (.endOfStream c) none
  | cancel t =>
    have hne : ticket ≠ t := fun he => hc (he ▸ rfl)
    show Leaves ticket d (d.cancel t).2
    unfold cancel
    split
    · exact ⟨rfl, Nat.le_refl _⟩
    · next w hw => exact ⟨replaced hw hne (fun v hv => by cases hv), Nat.le_refl _⟩
  | poll t limit =>
    have hne : ticket ≠ t := fun he => hp (congrArg some he.symm)
    show Leaves ticket d (d.poll t limit).value.2
    cases hw : d.waiting.find? (·.ticket = t) with
    | none =>
      rw [poll, hw]
      exact ⟨rfl, Nat.le_refl _⟩
    | some w =>
      have hpolls := polls_poll hw limit
      generalize (proceed _ _ _ _ _).value = r at hpolls
      generalize (d.poll t limit).value = s at hpolls ⊢
      cases hpolls with
      | finished result e _ hnext =>
        exact ⟨replaced hw hne (fun v hv => by cases hv), Nat.le_of_eq hnext.symm⟩
      | waiting queue task e _ hnext =>
        exact ⟨replaced hw hne fun v hv => by cases hv; rfl, Nat.le_of_eq hnext.symm⟩
  | call | attach | detach | receive | close | drop => exact ⟨rfl, Nat.le_refl _⟩

theorem cancel_waiting (hn : (d.waiting.map WaitingCall.ticket).Nodup) {w : WaitingCall}
    (hw : d.waiting.find? (·.ticket = ticket) = some w) :
    (d.cancel ticket).2.waiting.find? (·.ticket = ticket) = none ∧
      (d.cancel ticket).2.nextTicket = d.nextTicket := by
  rw [cancel, hw]
  refine ⟨?_, rfl⟩
  show (WaitingCall.replace ticket none d.waiting).find? _ = none
  rw [WaitingCall.find?_replace (fun v hv => by cases hv) hn hw, if_pos rfl]

/-- The result of a call that no longer waits is not found by polling. -/
theorem trail_eq_none {x : Exchange} (h : d.Tracks x) (ht : ticket < d.nextTicket)
    (hw : d.waiting.find? (·.ticket = ticket) = none) (ops : List Operation) :
    (d.trail ticket ops).2 = none := by
  induction ops generalizing d x with
  | nil => rfl
  | cons op ops ih =>
    have hnext := (h.operate op).1
    rw [trail]
    by_cases hp : op.polled? = some ticket
    · obtain ⟨limit, rfl⟩ := Operation.polled?_eq_some hp
      have hpoll : (d.operate (.poll ticket limit)).value = (.polled none, d) := by
        show ((d.poll ticket limit) >>= _).value = _
        rw [poll, hw]
        rfl
      rw [if_pos hp, hpoll]
      exact ih h ht hw
    rw [if_neg hp]
    by_cases hc : op = .cancel ticket
    · subst hc
      have hcancel : (d.cancel ticket).2 = d := by rw [cancel, hw]
      have hstate : (d.operate (.cancel ticket)).value.2 = d := hcancel
      rw [hstate]
      exact ih h ht hw
    · have hleaves := leaves_operate h.nodup ht hp hc
      exact ih hnext (Nat.lt_of_lt_of_le ht hleaves.nextTicket_le) (hleaves.find?_eq.trans hw)

/-- A pass without channels that waits under a ticket ends without having put anything anywhere. -/
theorem trail_discarding {x : Exchange} (h : d.Tracks x)
    (hw : d.waiting.find? (·.ticket = ticket) = some ⟨ticket, none, .pass (.discarding gops)⟩)
    {ops : List Operation} {result : CallResult} (hr : (d.trail ticket ops).2 = some result) :
    result = .streamEnded (.error (.noChannels gops.length)) := by
  induction ops generalizing d x with
  | nil => cases hr
  | cons op ops ih =>
    have hnext := (h.operate op).1
    have hlt : ticket < d.nextTicket := h.ticket_lt _ (List.mem_of_find?_eq_some hw)
    rw [trail] at hr
    by_cases hp : op.polled? = some ticket
    · obtain ⟨limit, rfl⟩ := Operation.polled?_eq_some hp
      have hpolls := polls_poll hw limit
      have hvalue : (d.operate (.poll ticket limit)).value =
          (.polled (d.poll ticket limit).value.1, (d.poll ticket limit).value.2) := rfl
      rw [if_pos hp, hvalue] at hr
      rw [hvalue] at hnext
      cases hn : limit.getD (Task.pass (.discarding gops)).stepsLeft with
      | zero =>
        rw [hn] at hpolls
        generalize (d.poll ticket limit).value = s at hpolls hr hnext
        cases hpolls with
        | waiting _ _ _ _ _ =>
          refine ih hnext ?_ hr
          show (WaitingCall.replace ticket _ d.waiting).find? _ = _
          rw [WaitingCall.find?_replace (fun v hv => by cases hv; rfl) h.nodup hw, if_pos rfl]
      | succ n =>
        rw [hn] at hpolls
        generalize (d.poll ticket limit).value = s at hpolls hr
        cases hpolls with
        | finished _ _ _ _ => exact (Option.some.inj hr).symm
    · rw [if_neg hp] at hr
      by_cases hc : op = .cancel ticket
      · subst hc
        obtain ⟨hnone, hticket⟩ := cancel_waiting h.nodup hw
        have hstate : (d.operate (.cancel ticket)).value.2 = (d.cancel ticket).2 := rfl
        rw [hstate, trail_eq_none (h.cancel ticket) (hticket ▸ hlt) hnone] at hr
        cases hr
      · exact ih hnext ((leaves_operate h.nodup hlt hp hc).find?_eq.trans hw) hr

structure Underway (gops : List Gop) (plan : Partition) (kept : Channel → Prop) (ticket : Nat)
    (p : Pass) (d : Dispatcher) : Prop where
  attended : d.Attended kept
  keeps : (Progress.waiting p).Keeps gops plan kept
  waits : ∃ queue, d.waiting.find? (·.ticket = ticket) = some ⟨ticket, queue, .pass p⟩ ∧
    ∀ c k, kept c → d.board.Dedicated c k → ∀ call ∈ p.call?, call.channel = c →
      ∀ j ∈ queue, j = k

/-- A poll of a pass puts on the queues of the channels that are kept what is due there first. -/
theorem Underway.poll {p : Pass} (h : Underway gops plan kept ticket p d)
    (hn : (plan.blocks.map Block.channel).Nodup)
    (hm : ∀ c, kept c → c ∈ plan.blocks.map Block.channel) (limit : Option Nat) :
    (∃ p', (d.poll ticket limit).value.1 = none ∧
        Underway gops plan kept ticket p' (d.poll ticket limit).value.2 ∧
        ∀ c k, kept c → d.board.Dedicated c k →
          p.due c = d.added (d.poll ticket limit).value.2 k ++ p'.due c) ∨
      ∃ result, (d.poll ticket limit).value.1 = some (.streamEnded result) ∧
        Names plan kept result ∧ ∀ c k, kept c → d.board.Dedicated c k →
          d.added (d.poll ticket limit).value.2 k = p.due c := by
  obtain ⟨queue, hw, hq⟩ := h.waits
  obtain ⟨x, journal, ht, -⟩ := h.attended.sound
  obtain ⟨hnext, hstays⟩ := h.attended.afterPoll ticket limit
  have hputs := puts_proceed ticket (limit.getD (Task.pass p).stepsLeft) hn hm h.keeps
    (fun c hc => ⟨h.attended.live c hc, h.attended.routed c hc⟩)
    fun c k hc hb call hcall j hj => ⟨fun he => hq c k hc hb call hcall he j hj, fun he =>
      h.attended.channel_of_waiting hb hw (he ▸ hj) hcall⟩
  have hpolls := polls_poll hw limit
  generalize (d.proceed _ _ _ _).value = r at hputs hpolls
  generalize (d.poll ticket limit).value = s at hnext hstays hpolls ⊢
  cases hputs with
  | waits queue' p' e hp hc =>
    cases hpolls
    refine .inl ⟨p', rfl, ⟨hnext, hp, queue', ?_, fun c k hk hb => ?_⟩, fun c k hk hb => ?_⟩
    · show (WaitingCall.replace ticket _ d.waiting).find? _ = _
      rw [WaitingCall.find?_replace (fun v hv => by cases hv; rfl) ht.nodup hw, if_pos rfl]
    · exact (hc c k hk ((hstays c k hk).mp hb)).2.1
    · obtain ⟨-, -, put, hcontents, hdue⟩ := hc c k hk hb
      exact hdue.trans (congrArg (· ++ p'.due c) (added_of_contents hcontents).symm)
  | ends result e hr hc =>
    cases hpolls
    exact .inr ⟨result, rfl, hr, fun c k hk hb => added_of_contents (hc c k hk hb)⟩

/-- When a pass has ended, its trail on the channels that are kept is all that was due. -/
theorem Underway.trail {p : Pass} (h : Underway gops plan kept ticket p d)
    (hn : (plan.blocks.map Block.channel).Nodup)
    (hm : ∀ c, kept c → c ∈ plan.blocks.map Block.channel) {ops : List Operation}
    (hops : ∀ op ∈ ops, ∀ c k, kept c → d.board.Dedicated c k → op.Spares c k)
    {result : CallResult} (hr : (d.trail ticket ops).2 = some result) :
    ∃ verdict, result = .streamEnded verdict ∧ Names plan kept verdict ∧
      ∀ c k, kept c → d.board.Dedicated c k → (d.trail ticket ops).1 k = p.due c := by
  induction ops generalizing d p with
  | nil => cases hr
  | cons op ops ih =>
    obtain ⟨x, journal, ht, -⟩ := h.attended.sound
    obtain ⟨hnext, hstays⟩ := h.attended.operate (hops op List.mem_cons_self)
    have hops' : ∀ o ∈ ops, ∀ c k, kept c → (d.operate op).value.2.board.Dedicated c k →
        o.Spares c k := fun o ho c k hk hb =>
      hops o (List.mem_cons_of_mem _ ho) c k hk ((hstays c k hk).mp hb)
    rw [Dispatcher.trail] at hr ⊢
    by_cases hp : op.polled? = some ticket
    · obtain ⟨limit, rfl⟩ := Operation.polled?_eq_some hp
      have hvalue : (d.operate (.poll ticket limit)).value =
          (.polled (d.poll ticket limit).value.1, (d.poll ticket limit).value.2) := rfl
      rw [if_pos hp, hvalue] at hr ⊢
      rcases h.poll hn hm limit with ⟨p', hnone, hu, hdue⟩ | ⟨verdict, hsome, hnames, hdue⟩
      · rw [hnone] at hr ⊢
        obtain ⟨verdict, hverdict, hnames, htrail⟩ := ih hu hops' hr
        refine ⟨verdict, hverdict, hnames, fun c k hk hb => ?_⟩
        rw [hdue c k hk hb, ← htrail c k hk ((hstays c k hk).mpr hb)]
      · rw [hsome] at hr ⊢
        exact ⟨verdict, (Option.some.inj hr).symm, hnames, hdue⟩
    · rw [if_neg hp] at hr ⊢
      obtain ⟨queue, hw, hq⟩ := h.waits
      have hlt : ticket < d.nextTicket := ht.ticket_lt _ (List.mem_of_find?_eq_some hw)
      by_cases hc : op = .cancel ticket
      · subst hc
        obtain ⟨hnone, hticket⟩ := cancel_waiting ht.nodup hw
        have hstate : (d.operate (.cancel ticket)).value.2 = (d.cancel ticket).2 := rfl
        rw [hstate, trail_eq_none (ht.cancel ticket) (hticket ▸ hlt) hnone] at hr
        cases hr
      · -- The pass stays where it is, and so does what is due: only its own polls move it.
        have hleaves := leaves_operate ht.nodup hlt hp hc
        have hu : Underway gops plan kept ticket p (d.operate op).value.2 := by
          refine ⟨hnext, h.keeps, queue, hleaves.find?_eq.trans hw, fun c k hk hb => ?_⟩
          exact hq c k hk ((hstays c k hk).mp hb)
        obtain ⟨verdict, hverdict, hnames, htrail⟩ := ih hu hops' hr
        exact ⟨verdict, hverdict, hnames, fun c k hk hb =>
          htrail c k hk ((hstays c k hk).mpr hb)⟩

end Dispatcher

end StreamFanout
