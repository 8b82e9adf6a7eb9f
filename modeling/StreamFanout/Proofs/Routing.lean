import StreamFanout.Proofs.Delivery.Journal
import StreamFanout.Proofs.Delivery.Lookups
import StreamFanout.Proofs.Delivery.Replay

/-!
Routing: no event is lost, none is doubled and none strays. Whatever the host, the consumers and the
passes do, and however many calls wait meanwhile, each call is sent at most once, on the queue that
its channel led to when the call began, and each consumer receives what was sent on its queue.
-/
namespace StreamFanout.Dispatcher

/-- In every run, with the journal of its acts:
* the journal leads to the switchboard and the waiting calls of the run, and tells the host what the
  run tells it;
* on a queue whose consumer has not gone, the events received and those still queued are the events
  of the calls that were sent there, in the order in which they were sent;
* each call has one story: it waits, or was given up, or returned without being sent, which no push
  that is accepted does, or was sent once and accepted;
* a call that waits or was sent keeps to the queue that its channel led to when it began, and this
  queue was never attached under another channel. -/
theorem sends_routed (config : Config) (capacity : Nat) (ops : List Operation) :
    let r := ((fresh config capacity).operateAll ops).value
    let y := (Exchange.ofCapacity capacity).run ((fresh config capacity).actsAll ops)
    let journal := y.1
    (y.2.board = r.2.board ∧
        (∀ t, (y.2.held t).map Held.place =
          (r.2.waiting.find? (·.ticket = t)).bind WaitingCall.place?) ∧
        journal.filterMap Incident.pushed? = r.1.filterMap OperationResult.pushed?) ∧
      (∀ k (q : Queue), r.2.board.queues[k]? = some q → q.consumer ≠ .dropped →
        received k ops r.1 ++ q.events.toList = journal.filterMap (Incident.sentOn? k)) ∧
      ((∀ i ∈ journal, ∀ n, i.number? = some n → ∃ call,
          Story n call (y.2.Holds n) (journal.filter (·.number? = some n))) ∧
        ∀ t h, y.2.held t = some h →
          journal.filter (·.number? = some h.number) = [.begun h.number h.call]) ∧
      (∀ n call k, .sent n call k ∈ journal → Looked journal n call k) ∧
      (∀ t h, y.2.held t = some h → Looked journal h.number h.call h.queue) ∧
      ∀ c d k, .attached c k ∈ journal → .attached d k ∈ journal → c = d := by
  intro r y journal
  obtain ⟨htracks, htold, hread⟩ := (tracks_fresh config capacity).operateAll ops
  have hstories : y.2.Told journal := Exchange.run_induction (P := Exchange.Told)
    (fun _ _ a h => h.act a) (Exchange.told_fresh capacity) _
  have htraced : y.2.Traced journal := Exchange.run_induction (P := Exchange.Traced)
    (fun _ _ a h => h.act a) (Exchange.traced_fresh capacity) _
  refine ⟨⟨htracks.board_eq, htracks.held_eq, htold⟩, fun k q hq hd => ?_,
    ⟨fun i hi n hn => ?_, hstories.held_story⟩, htraced.sent, htraced.held, htraced.owner⟩
  · have hboard : y.2.board = r.2.board := htracks.board_eq
    have hkept : y.2.board.consumer? k ≠ some .dropped := by
      rw [hboard, Switchboard.consumer?, hq]
      exact fun he => hd (Option.some.inj he)
    have hcontents := Exchange.contents_run (.ofCapacity capacity) _ hkept
    have hempty : (Exchange.ofCapacity capacity).board.contents k = [] := rfl
    rw [hread k, hboard, Switchboard.contents_of_queue hq, hempty, List.nil_append] at hcontents
    exact hcontents.symm
  · refine hstories.story n (Nat.lt_of_not_le fun hle => ?_)
    have hmem : i ∈ journal.filter (·.number? = some n) :=
      List.mem_filter.mpr ⟨hi, decide_eq_true hn⟩
    rw [hstories.ahead n hle] at hmem
    cases hmem

/-- A push that waits while its channel is attached anew keeps to the queue it has looked up. -/
example :
    let unit (pts : UInt64) : AccessUnit := { pts, payload := ⟨#[1]⟩, isKeyframe := true }
    let ops : List Operation := [.attach ⟨0⟩, .push ⟨0⟩ (unit 0), .push ⟨0⟩ (unit 1), .attach ⟨0⟩,
      .receive 0, .poll 0, .receive 0, .receive 1]
    let results := ((fresh {} 1).operateAll ops).value.1
    received 0 ops results = [.unit (unit 0), .unit (unit 1)] ∧ received 1 ops results = [] := by
  decide +kernel

end StreamFanout.Dispatcher
