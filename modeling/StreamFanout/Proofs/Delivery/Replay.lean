import StreamFanout.Delivery.Operation
import StreamFanout.Proofs.Delivery.Contents
import StreamFanout.Proofs.Delivery.Setup
import StreamFanout.Proofs.Delivery.Tasks

/-!
The acts of a dispatcher. Operations come to acts at its switchboard: a step of a task makes a call
or takes one on, or it looks at the fanout and does nothing there. Replayed on an exchange, the acts
of a run lead to the same switchboard and the same calls that wait on queues, and the consumers and
the host see the same.
-/
namespace StreamFanout

/-- What is known of a call that waits on a queue: the queue, whether the host has made it, and the
call. -/
abbrev Place := Nat × Bool × Option SinkCall

def Held.place (h : Held) : Place :=
  (h.queue, h.byHost, some h.call)

namespace Task

def byHost : Task → Bool
  | pass _ => false
  | _ => true

def place? (task : Task) (queue : Option Nat) : Option Place :=
  queue.map (·, task.byHost, task.call?)

end Task

def WaitingCall.place? (w : WaitingCall) : Option Place :=
  w.task.place? w.queue

namespace Issue

def place? (byHost : Bool) (call : SinkCall) : Issue → Option Place
  | waits queue => some (queue, byHost, some call)
  | answered _ => none

def pushed? (byHost : Bool) (call : SinkCall) : Issue → Option Answer
  | answered answer => (Incident.returned 0 byHost call answer).pushed?
  | waits _ => none

end Issue

def TaskProgress.place? : TaskProgress → Option Place
  | waiting queue task => task.place? queue
  | finished _ => none

def CallResult.pushed? : CallResult → Option Answer
  | pushed answer => some answer
  | _ => none

def TaskProgress.pushed? : TaskProgress → Option Answer
  | finished result => result.pushed?
  | waiting .. => none

def Started.pushed? : Started → Option Answer
  | finished result => result.pushed?
  | pending _ => none

def OperationResult.pushed? : OperationResult → Option Answer
  | started s => s.pushed?
  | polled result => result.bind CallResult.pushed?
  | _ => none

def Operation.RunsTask : Operation → Prop
  | endStream _ | push .. | sendEnd _ | poll .. => True
  | _ => False

namespace Exchange

variable {x : Exchange} {ticket : Nat}

/-- `y` is `x` but for the board and the call that is held under a ticket. -/
structure Becomes (x : Exchange) (ticket : Nat) (board : Switchboard) (place : Option Place)
    (y : Exchange) : Prop where
  board_eq : y.board = board
  other : ∀ t, t ≠ ticket → y.held t = x.held t
  held_eq : (y.held ticket).map Held.place = place

theorem Becomes.trans {y z : Exchange} {b b' : Switchboard} {p p' : Option Place}
    (h : x.Becomes ticket b p y) (h' : y.Becomes ticket b' p' z) : x.Becomes ticket b' p' z :=
  ⟨h'.board_eq, fun t ht => (h'.other t ht).trans (h.other t ht), h'.held_eq⟩

theorem becomes_conclude (x : Exchange) (ticket : Nat) (h : Held) (r : SendResult × Switchboard) :
    x.Becomes ticket r.2 ((h.call.issue h.queue r.1).value.place? h.byHost h.call)
        (x.conclude ticket h r).2 ∧
      (x.conclude ticket h r).1.filterMap Incident.pushed? =
        ((h.call.issue h.queue r.1).value.pushed? h.byHost h.call).toList := by
  obtain ⟨result, board⟩ := r
  have hother (held : Option Held) (t : Nat) (ht : t ≠ ticket) :
      Function.update x.held ticket held t = x.held t := Function.update_of_ne ht ..
  have hself (held : Option Held) :
      (Function.update x.held ticket held ticket).map Held.place = held.map Held.place := by
    rw [Function.update_self]
  have htold (answer : Answer) :
      [Incident.returned h.number h.byHost h.call answer].filterMap Incident.pushed? =
        ((Issue.answered answer).pushed? h.byHost h.call).toList := by
    cases h.byHost <;> cases h.call <;> rfl
  cases result with
  | sent => exact ⟨⟨rfl, hother none, hself none⟩, htold .accepted⟩
  | refused => exact ⟨⟨rfl, hother none, hself none⟩, htold h.call.consumerGone.value⟩
  | waiting => exact ⟨⟨rfl, hother (some h), hself (some h)⟩, rfl⟩

/-- A call is made under a free ticket. -/
theorem becomes_call (hn : x.held ticket = none) (byHost : Bool) (call : SinkCall) :
    x.Becomes ticket (x.board.issue ticket call).value.2
        ((x.board.issue ticket call).value.1.place? byHost call)
        (x.act (.call ticket byHost call)).2 ∧
      (x.act (.call ticket byHost call)).1.filterMap Incident.pushed? =
        ((x.board.issue ticket call).value.1.pushed? byHost call).toList := by
  cases hr : x.board.route? call.channel with
  | none =>
    have hissue : (x.board.issue ticket call).value = (.answered call.unrouted, x.board) := by
      rw [Switchboard.issue, hr]
      rfl
    simp only [act, hn, hr, hissue]
    refine ⟨⟨rfl, fun t _ => rfl, by rw [hn]; rfl⟩, ?_⟩
    cases byHost <;> cases call <;> rfl
  | some k =>
    have hissue : (x.board.issue ticket call).value =
        ((call.issue k (x.board.sendBy k (·.offer ticket call.event)).1).value,
          (x.board.sendBy k (·.offer ticket call.event)).2) := by
      rw [Switchboard.issue, hr]
      rfl
    have hc := (x.hold ticket ⟨x.begun, k, byHost, call⟩).becomes_conclude ticket
      ⟨x.begun, k, byHost, call⟩ (x.board.sendBy k (·.offer ticket call.event))
    simp only [act, hn, hr, hissue]
    refine ⟨⟨hc.1.board_eq, fun t ht => ?_, hc.1.held_eq⟩, hc.2⟩
    exact (hc.1.other t ht).trans (Function.update_of_ne ht ..)

theorem becomes_retry {h : Held} (hh : x.held ticket = some h) :
    x.Becomes ticket (x.board.reissue ticket h.queue h.call).value.2
        ((x.board.reissue ticket h.queue h.call).value.1.place? h.byHost h.call)
        (x.act (.retry ticket)).2 ∧
      (x.act (.retry ticket)).1.filterMap Incident.pushed? =
        ((x.board.reissue ticket h.queue h.call).value.1.pushed? h.byHost h.call).toList := by
  simp only [act, hh]
  exact x.becomes_conclude ticket h _

end Exchange

namespace Dispatcher

variable {d : Dispatcher} {x : Exchange}

/-- What a step of a task does at the switchboard: the first attempt at its call, or a further
one. -/
def actsOfStep (ticket : Nat) (queue : Option Nat) (task : Task) : List Act :=
  match task.call?, queue with
  | none, _ => []
  | some call, none => [.call ticket task.byHost call]
  | some _, some _ => [.retry ticket]

def actsFrom (d : Dispatcher) (ticket : Nat) : (limit : Nat) → Option Nat → Task → List Act
  | 0, _, _ => []
  | limit + 1, queue, task =>
    actsOfStep ticket queue task ++
      match (d.step ticket queue task).value with
      | (.waiting none task, d) => d.actsFrom ticket limit none task
      | _ => []

def actsOfStart (d : Dispatcher) (task : Task) (limit : Option Nat := none) : List Act :=
  d.actsFrom d.nextTicket (limit.getD task.stepsLeft) none task

/-- What an operation does at the switchboard. -/
def acts (d : Dispatcher) : Operation → List Act
  | .call _ => []
  | .endStream limit =>
    match d.fanout.endStream.value with
    | (.ended _, _) => []
    | (.suspended pass, fanout) => actsOfStart { d with fanout } (.pass pass) limit
  | .push c u => d.actsOfStart (.push c u)
  | .sendEnd c => d.actsOfStart (.endOfStream c)
  | .attach c => [.attach c]
  | .detach c => [.detach c]
  | .receive queue => [.receive queue]
  | .close queue => [.close queue]
  | .drop queue => [.drop queue]
  | .cancel ticket => [.giveUp ticket]
  | .poll ticket limit =>
    match d.waiting.find? (·.ticket = ticket) with
    | none => []
    | some w => d.actsFrom ticket (limit.getD w.task.stepsLeft) w.queue w.task

def actsAll (d : Dispatcher) : List Operation → List Act
  | [] => []
  | op :: ops => d.acts op ++ (d.operate op).value.2.actsAll ops

/-- A task that leaves its stop does nothing at the switchboard, and waits on no queue then. If it
is a push of the host it tells the answer. -/
theorem resume_told (d : Dispatcher) (task : Task) (answer : Answer) :
    (d.resume task answer).value.2.board = d.board ∧
      (d.resume task answer).value.1.place? = none ∧
      (d.resume task answer).value.1.pushed? =
        task.call?.bind ((Issue.answered answer).pushed? task.byHost) := by
  cases task with
  | push | endOfStream => exact ⟨rfl, rfl, rfl⟩
  | pass p =>
    have hnone : (Task.pass p).call?.bind
        ((Issue.answered answer).pushed? (Task.pass p).byHost) = none := by
      rw [Option.bind_eq_none_iff]
      intro call _
      cases call <;> rfl
    rw [hnone, resume, Logged.value_bind]
    split <;> exact ⟨rfl, rfl, rfl⟩

/-- An attempt at a call and its act come to the same. -/
theorem becomes_attempt {ticket : Nat} {queue : Option Nat} {task : Task} {call : SinkCall}
    (hcall : task.call? = some call) (hb : x.board = d.board)
    (hh : (x.held ticket).map Held.place = task.place? queue) :
    x.Becomes ticket (d.attempt ticket call queue).value.2
        ((d.attempt ticket call queue).value.1.place? task.byHost call)
        (x.run (actsOfStep ticket queue task)).2 ∧
      (x.run (actsOfStep ticket queue task)).1.filterMap Incident.pushed? =
        ((d.attempt ticket call queue).value.1.pushed? task.byHost call).toList := by
  cases queue with
  | none =>
    have hacts : actsOfStep ticket none task = [.call ticket task.byHost call] := by
      simp only [actsOfStep, hcall]
    rw [hacts, Exchange.run_singleton, attempt, ← hb]
    exact Exchange.becomes_call (Option.map_eq_none_iff.mp hh) task.byHost call
  | some k =>
    have hacts : actsOfStep ticket (some k) task = [.retry ticket] := by
      simp only [actsOfStep, hcall]
    obtain ⟨g, hg, hplace⟩ := Option.map_eq_some_iff.mp hh
    simp only [Held.place, hcall, Prod.mk.injEq, Option.some.injEq] at hplace
    obtain ⟨rfl, hbyHost, rfl⟩ := hplace
    rw [hacts, Exchange.run_singleton, attempt, ← hb, ← hbyHost]
    exact Exchange.becomes_retry hg

/-- A step and its acts come to the same, for the task and for the host. -/
theorem becomes_step {ticket : Nat} {queue : Option Nat} {task : Task} (hb : x.board = d.board)
    (hh : (x.held ticket).map Held.place = task.place? queue) :
    x.Becomes ticket (d.step ticket queue task).value.2.board
        (d.step ticket queue task).value.1.place? (x.run (actsOfStep ticket queue task)).2 ∧
      (x.run (actsOfStep ticket queue task)).1.filterMap Incident.pushed? =
        (d.step ticket queue task).value.1.pushed?.toList := by
  rw [step]
  cases hcall : task.call? with
  | none =>
    obtain ⟨hboard, hplace, hpushed⟩ := d.resume_told task .accepted
    have hacts : actsOfStep ticket queue task = [] := by
      simp only [actsOfStep, hcall]
    have hfree : (x.held ticket).map Held.place = none := by
      cases hx : x.held ticket with
      | none => rfl
      | some g =>
        -- what is held is a call, and this task stands at none
        rw [hx, Task.place?, hcall] at hh
        obtain ⟨k, -, hplace⟩ := Option.map_eq_some_iff.mp hh.symm
        cases congrArg (·.2.2) hplace
    rw [hcall] at hpushed
    rw [hacts]
    dsimp only
    rw [hboard, hplace, hpushed]
    exact ⟨⟨hb, fun t _ => rfl, hfree⟩, rfl⟩
  | some call =>
    have hattempt := becomes_attempt hcall hb hh
    rw [Logged.value_bind]
    generalize (d.attempt ticket call queue).value = r at hattempt ⊢
    obtain ⟨issue, board⟩ := r
    cases issue with
    | waits k =>
      show x.Becomes ticket board (task.place? (some k)) _ ∧ _
      rw [Task.place?, hcall]
      exact hattempt
    | answered answer =>
      obtain ⟨hboard, hplace, hpushed⟩ := resume_told { d with board } task answer
      rw [hcall] at hpushed
      dsimp only
      rw [hboard, hplace, hpushed]
      exact hattempt

/-- A task that is taken on and its acts come to the same. -/
theorem becomes_proceed (d : Dispatcher) {ticket : Nat} (limit : Nat) (queue : Option Nat)
    (task : Task) {x : Exchange} (hb : x.board = d.board)
    (hh : (x.held ticket).map Held.place = task.place? queue) :
    x.Becomes ticket (d.proceed ticket limit queue task).value.2.board
        (d.proceed ticket limit queue task).value.1.place?
        (x.run (d.actsFrom ticket limit queue task)).2 ∧
      (x.run (d.actsFrom ticket limit queue task)).1.filterMap Incident.pushed? =
        (d.proceed ticket limit queue task).value.1.pushed?.toList := by
  induction limit generalizing d queue task x with
  | zero => exact ⟨⟨hb, fun t _ => rfl, hh⟩, rfl⟩
  | succ limit ih =>
    obtain ⟨hstep, htold⟩ := becomes_step hb hh
    rw [proceed, actsFrom, Logged.value_bind]
    generalize (d.step ticket queue task).value = r at hstep htold ⊢
    obtain ⟨progress, d'⟩ := r
    cases progress with
    | finished result =>
      rw [List.append_nil]
      exact ⟨hstep, htold⟩
    | waiting queue' task' =>
      cases queue' with
      | some k =>
        rw [List.append_nil]
        exact ⟨hstep, htold⟩
      | none =>
        obtain ⟨hrest, htold'⟩ := ih d' none task' hstep.board_eq hstep.held_eq
        dsimp only
        rw [Exchange.run_append, List.filterMap_append, htold, htold']
        exact ⟨hstep.trans hrest, rfl⟩

/-- The exchange holds the calls that wait in the dispatcher, under the same tickets, and no ticket
is given twice. -/
structure Tracks (d : Dispatcher) (x : Exchange) : Prop where
  board_eq : x.board = d.board
  held_eq : ∀ t, (x.held t).map Held.place =
    (d.waiting.find? (·.ticket = t)).bind WaitingCall.place?
  ticket_lt : ∀ w ∈ d.waiting, w.ticket < d.nextTicket
  nodup : (d.waiting.map WaitingCall.ticket).Nodup

theorem tracks_fresh (config : Config) (capacity : Nat) :
    (fresh config capacity).Tracks (.ofCapacity capacity) where
  board_eq := rfl
  held_eq t := rfl
  ticket_lt w hw := by cases hw
  nodup := List.nodup_nil

theorem Tracks.find?_nextTicket (h : d.Tracks x) :
    d.waiting.find? (·.ticket = d.nextTicket) = none := by
  refine List.find?_eq_none.mpr fun w hw he => ?_
  exact Nat.ne_of_lt (h.ticket_lt w hw) (of_decide_eq_true he)

theorem Tracks.held_nextTicket (h : d.Tracks x) : x.held d.nextTicket = none := by
  have hheld := h.held_eq d.nextTicket
  rw [h.find?_nextTicket] at hheld
  exact Option.map_eq_none_iff.mp hheld

/-- A call is over under the next ticket. -/
theorem Tracks.keep (h : d.Tracks x) {e : Dispatcher} (hw : e.waiting = d.waiting)
    (hn : e.nextTicket = d.nextTicket) {y : Exchange}
    (hy : x.Becomes d.nextTicket e.board none y) : e.Tracks y := by
  refine ⟨hy.board_eq, fun t => ?_, ?_, ?_⟩
  · rw [hw, ← h.held_eq]
    by_cases ht : t = d.nextTicket
    · rw [ht, hy.held_eq, h.held_nextTicket]
      rfl
    · rw [hy.other t ht]
  · rw [hw, hn]
    exact h.ticket_lt
  · rw [hw]
    exact h.nodup

/-- A call begins to wait under the next ticket. -/
theorem Tracks.add (h : d.Tracks x) (fanout : Fanout) {board : Switchboard} {queue : Option Nat}
    {task : Task} {y : Exchange} (hy : x.Becomes d.nextTicket board (task.place? queue) y) :
    Tracks { d with
      fanout, board
      waiting := d.waiting ++ [⟨d.nextTicket, queue, task⟩]
      nextTicket := d.nextTicket + 1 } y := by
  refine ⟨hy.board_eq, fun t => ?_, fun w hw => ?_, ?_⟩
  · show (y.held t).map Held.place = ((d.waiting ++
      [(⟨d.nextTicket, queue, task⟩ : WaitingCall)]).find? (·.ticket = t)).bind WaitingCall.place?
    rw [List.find?_append]
    by_cases ht : t = d.nextTicket
    · rw [ht, hy.held_eq, h.find?_nextTicket]
      simp [WaitingCall.place?]
    · rw [hy.other t ht, h.held_eq, List.find?_cons_of_neg (by simpa using Ne.symm ht)]
      simp
  · rcases List.mem_append.mp hw with hw | hw
    · exact Nat.lt_succ_of_lt (h.ticket_lt w hw)
    · rw [List.mem_singleton.mp hw]
      exact Nat.lt_succ_self _
  · show ((d.waiting ++
      [(⟨d.nextTicket, queue, task⟩ : WaitingCall)]).map WaitingCall.ticket).Nodup
    rw [List.map_append, List.nodup_append]
    refine ⟨h.nodup, List.nodup_singleton _, fun t ht t' ht' he => ?_⟩
    obtain ⟨w, hw, rfl⟩ := List.mem_map.mp ht
    rw [List.mem_singleton.mp ht'] at he
    exact Nat.ne_of_lt (h.ticket_lt w hw) he

/-- A task that has been started waits under the next ticket, or is over. -/
theorem Tracks.start (h : d.Tracks x) (task : Task) (limit : Option Nat) :
    (d.start task limit).value.2.Tracks (x.run (d.actsOfStart task limit)).2 ∧
      (x.run (d.actsOfStart task limit)).1.filterMap Incident.pushed? =
        (d.start task limit).value.1.pushed?.toList := by
  obtain ⟨hall, htold⟩ := d.becomes_proceed (limit.getD task.stepsLeft) none task
    h.board_eq (Option.map_eq_none_iff.mpr h.held_nextTicket)
  have henters := d.enters_start task limit
  rw [actsOfStart]
  generalize (d.proceed _ _ _ _).value = r at *
  generalize (d.start task limit).value = s at henters ⊢
  cases henters with
  | finished result e hw hn => exact ⟨h.keep hw hn hall, htold⟩
  | waiting queue task' e => exact ⟨h.add e.fanout hall, htold⟩

/-- A waiting call that is replaced by another under its ticket, or by none. -/
theorem Tracks.replace (h : d.Tracks x) {ticket : Nat} {w : WaitingCall}
    (hw : d.waiting.find? (·.ticket = ticket) = some w) (new : Option WaitingCall)
    (hn : ∀ v ∈ new, v.ticket = ticket) {y : Exchange} {board : Switchboard} (fanout : Fanout)
    (hy : x.Becomes ticket board (new.bind WaitingCall.place?) y) :
    Tracks { d with board, fanout, waiting := WaitingCall.replace ticket new d.waiting } y := by
  have hsub := WaitingCall.tickets_replace hn d.waiting
  refine ⟨hy.board_eq, fun t => ?_, fun v hv => ?_, h.nodup.sublist hsub⟩
  · show (y.held t).map Held.place =
      ((WaitingCall.replace ticket new d.waiting).find? (·.ticket = t)).bind WaitingCall.place?
    rw [WaitingCall.find?_replace hn h.nodup hw]
    split
    · next ht => rw [ht, hy.held_eq]
    · next ht => rw [hy.other t ht, h.held_eq]
  · obtain ⟨u, hu, he⟩ := List.mem_map.mp (hsub.subset (List.mem_map_of_mem hv))
    show v.ticket < d.nextTicket
    rw [← he]
    exact h.ticket_lt u hu

theorem Tracks.held_place (h : d.Tracks x) {ticket : Nat} {w : WaitingCall}
    (hw : d.waiting.find? (·.ticket = ticket) = some w) :
    (x.held ticket).map Held.place = w.place? := by
  rw [h.held_eq ticket, hw]
  rfl

theorem Tracks.poll (h : d.Tracks x) (ticket : Nat) (limit : Option Nat) :
    (d.poll ticket limit).value.2.Tracks (x.run (d.acts (.poll ticket limit))).2 ∧
      (x.run (d.acts (.poll ticket limit))).1.filterMap Incident.pushed? =
        ((d.poll ticket limit).value.1.bind CallResult.pushed?).toList := by
  cases hw : d.waiting.find? (·.ticket = ticket) with
  | none =>
    simp only [acts, Dispatcher.poll, hw]
    exact ⟨h, rfl⟩
  | some w =>
    obtain ⟨hall, htold⟩ := d.becomes_proceed (limit.getD w.task.stepsLeft) w.queue w.task
      h.board_eq (h.held_place hw)
    have hpolls := polls_poll hw limit
    simp only [acts, hw]
    generalize (d.proceed _ _ _ _).value = r at *
    generalize Exchange.run _ _ = y at *
    generalize (d.poll ticket limit).value = s at hpolls ⊢
    cases hpolls with
    | finished result e _ hnext =>
      have ht := h.replace hw none (fun v hv => by cases hv) e.fanout hall
      rw [← hnext] at ht
      exact ⟨ht, htold⟩
    | waiting queue task e _ hnext =>
      have ht := h.replace hw (some ⟨ticket, queue, task⟩)
        (fun v hv => by cases hv; rfl) e.fanout hall
      rw [← hnext] at ht
      exact ⟨ht, htold⟩

/-- Acts that leave the calls that wait as they are. -/
theorem Tracks.board (h : d.Tracks x) (board : Switchboard) :
    Tracks { d with board } { x with board } :=
  { h with board_eq := rfl }

theorem Tracks.cancel (h : d.Tracks x) (ticket : Nat) :
    (d.cancel ticket).2.Tracks (x.act (.giveUp ticket)).2 := by
  cases hw : d.waiting.find? (·.ticket = ticket) with
  | none =>
    have hheld := h.held_eq ticket
    rw [hw] at hheld
    simp only [Exchange.act, Option.map_eq_none_iff.mp hheld, Dispatcher.cancel, hw]
    exact h
  | some w =>
    have hplace := h.held_place hw
    simp only [Dispatcher.cancel, hw]
    refine h.replace hw none (fun v hv => by cases hv) d.fanout ?_
    rw [leave]
    rcases hx : x.held ticket with - | g
    · rw [hx] at hplace
      rw [Option.map_eq_none_iff.mp hplace.symm]
      simp only [Exchange.act, hx]
      exact ⟨h.board_eq, fun t _ => rfl, by rw [hx]; rfl⟩
    · rw [hx] at hplace
      obtain ⟨k, hk, hsame⟩ := Option.map_eq_some_iff.mp hplace.symm
      have hqueue : k = g.queue := congrArg Prod.fst hsame
      rw [hk, hqueue]
      have hticket : w.ticket = ticket := by simpa using List.find?_some hw
      simp only [Exchange.act, hx, h.board_eq, hticket]
      refine ⟨rfl, fun t ht => ?_, ?_⟩
      · exact Function.update_of_ne ht none x.held
      · exact congrArg (Option.map Held.place) (Function.update_self ticket none x.held)

/-- An operation and its acts come to the same. -/
theorem Tracks.operate (h : d.Tracks x) (op : Operation) :
    (d.operate op).value.2.Tracks (x.run (d.acts op)).2 ∧
      (x.run (d.acts op)).1.filterMap Incident.pushed? =
        (d.operate op).value.1.pushed?.toList := by
  have single {a : Act} {e : Dispatcher} (ha : e.Tracks (x.act a).2)
      (hq : (x.act a).1.filterMap Incident.pushed? = []) :
      e.Tracks (x.run [a]).2 ∧ (x.run [a]).1.filterMap Incident.pushed? = [] := by
    rw [Exchange.run_singleton]
    exact ⟨ha, hq⟩
  have onBoard (f : Switchboard → Switchboard) :
      Tracks { d with board := f d.board } { x with board := f x.board } :=
    h.board_eq ▸ h.board (f x.board)
  cases op with
  | call c => exact ⟨{ h with }, rfl⟩
  | endStream limit =>
    have hf (fanout : Fanout) : Tracks { d with fanout } x := { h with }
    show Tracks (d.endStream limit).value.2 _ ∧ _ = (d.endStream limit).value.1.pushed?.toList
    simp only [acts, Dispatcher.endStream, Logged.value_bind]
    cases d.fanout.endStream.value with
    | mk outcome fanout =>
      cases outcome with
      | ended result => exact ⟨hf fanout, rfl⟩
      | suspended p => exact (hf fanout).start (.pass p) limit
  | push c u => exact h.start (.push c u) none
  | sendEnd c => exact h.start (.endOfStream c) none
  | attach c => exact single (onBoard fun b => (b.attach c).2) rfl
  | detach c => exact single (onBoard fun b => b.unroute c) rfl
  | receive queue =>
    refine single (onBoard fun b => (b.receive queue).2) ?_
    show ((x.board.receive queue).1.event?.toList.map _).filterMap Incident.pushed? = []
    simp [Incident.pushed?]
  | close queue => exact single (onBoard fun b => b.modify queue Queue.close) rfl
  | drop queue => exact single (onBoard fun b => b.modify queue Queue.drop) rfl
  | cancel ticket =>
    refine single (h.cancel ticket) ?_
    have ht := x.takes_act (.giveUp ticket)
    generalize x.act (.giveUp ticket) = r at ht
    cases ht <;> rfl
  | poll ticket limit => exact h.poll ticket limit

theorem attempts_actsFrom (d : Dispatcher) (ticket limit : Nat) (queue : Option Nat)
    (task : Task) : ∀ a ∈ d.actsFrom ticket limit queue task, a.Attempts ticket := by
  induction limit generalizing d queue task with
  | zero => exact fun a ha => by cases ha
  | succ limit ih =>
    intro a ha
    rw [actsFrom] at ha
    rcases List.mem_append.mp ha with ha | ha
    · unfold actsOfStep at ha
      split at ha
      · cases ha
      · exact List.mem_singleton.mp ha ▸ rfl
      · exact List.mem_singleton.mp ha ▸ rfl
    · split at ha
      · next task' d' _ => exact ih d' none task' a ha
      · cases ha

/-- A task only makes calls and takes them on. -/
theorem attempts_acts (d : Dispatcher) {op : Operation} (h : op.RunsTask) :
    ∀ a ∈ d.acts op, ∃ ticket, a.Attempts ticket := by
  have task (d : Dispatcher) (ticket limit : Nat) (queue : Option Nat) (task : Task) :
      ∀ a ∈ d.actsFrom ticket limit queue task, ∃ ticket, a.Attempts ticket :=
    fun a ha => ⟨ticket, d.attempts_actsFrom ticket limit queue task a ha⟩
  cases op with
  | endStream limit =>
    simp only [acts]
    split
    · exact fun a ha => by cases ha
    · exact task _ _ _ _ _
  | push c u => exact task d _ _ _ _
  | sendEnd c => exact task d _ _ _ _
  | poll ticket limit =>
    simp only [acts]
    split
    · exact fun a ha => by cases ha
    · exact task d _ _ _ _
  | call | attach | detach | receive | close | drop | cancel => cases h

theorem readOn_run_eq_nil {acts : List Act} (ha : ∀ a ∈ acts, ∀ queue, a ≠ .receive queue)
    (x : Exchange) (k : Nat) : (x.run acts).1.filterMap (Incident.readOn? k) = [] := by
  induction acts generalizing x with
  | nil => rfl
  | cons a acts ih =>
    rw [Exchange.run, List.filterMap_append, Exchange.readOn_act (ha a List.mem_cons_self),
      ih fun b hb => ha b (List.mem_cons_of_mem _ hb)]
    rfl

/-- What an operation reads on a queue is in the journal of its acts. -/
theorem Tracks.read (h : d.Tracks x) (op : Operation) (k : Nat) :
    (x.run (d.acts op)).1.filterMap (Incident.readOn? k) =
      (readOn? k (op, (d.operate op).value.1)).toList := by
  have task (ho : op.RunsTask) : (x.run (d.acts op)).1.filterMap (Incident.readOn? k) = [] := by
    refine readOn_run_eq_nil (fun a ha queue he => ?_) x k
    obtain ⟨ticket, hattempts⟩ := d.attempts_acts ho a ha
    rw [he] at hattempts
    exact hattempts
  cases op with
  | receive queue =>
    rw [acts, Exchange.run_singleton, Exchange.readOn_receive, h.board_eq]
    show _ = (if queue = k then (d.board.receive queue).1.event? else none).toList
    by_cases hk : k = queue
    · rw [if_pos hk, if_pos hk.symm]
    · rw [if_neg hk, if_neg (Ne.symm hk)]
      rfl
  | endStream | push | sendEnd | poll => exact task trivial
  | call c => rfl
  | attach | detach | close | drop | cancel =>
    refine readOn_run_eq_nil (fun a ha => ?_) x k
    cases List.mem_singleton.mp ha
    intro queue he
    cases he

/-- A run and its acts come to the same. -/
theorem Tracks.operateAll (h : d.Tracks x) (ops : List Operation) :
    let r := (d.operateAll ops).value
    let y := x.run (d.actsAll ops)
    r.2.Tracks y.2 ∧
      y.1.filterMap Incident.pushed? = r.1.filterMap OperationResult.pushed? ∧
      ∀ k, y.1.filterMap (Incident.readOn? k) = received k ops r.1 := by
  induction ops generalizing d x with
  | nil => exact ⟨h, rfl, fun k => rfl⟩
  | cons op ops ih =>
    obtain ⟨hnext, htold⟩ := h.operate op
    obtain ⟨hrest, htolds, hreads⟩ := ih hnext
    have hr : (d.operateAll (op :: ops)).value =
        ((d.operate op).value.1 :: ((d.operate op).value.2.operateAll ops).value.1,
          ((d.operate op).value.2.operateAll ops).value.2) := rfl
    rw [hr, actsAll, Exchange.run_append]
    refine ⟨hrest, ?_, fun k => ?_⟩
    · rw [List.filterMap_append, htold, htolds, List.filterMap_cons]
      cases (d.operate op).value.1.pushed? <;> rfl
    · rw [List.filterMap_append, h.read op k, hreads k, received_cons]

end Dispatcher

end StreamFanout
