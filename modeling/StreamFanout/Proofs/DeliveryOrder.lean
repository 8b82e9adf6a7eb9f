import StreamFanout.Proofs.Delivery.Setup

/-!
What the consumers receive does not depend on the depth of their queues, nor on when passes are
polled and queues read. While no consumer closes and one stream is distributed after the other,
each consumer receives the deliveries of the streams one after the other, and every end of stream
gives back the report that the stream and the channels determine.
-/
namespace StreamFanout.Dispatcher

/-- What the consumer of a channel has received and what is queued for it are, at any time, the
beginning of the deliveries of the streams that have ended, and all of them when no pass waits. The
ends of stream give back their verdicts in order, the one whose pass waits excepted, and no unit is
ever dropped. -/
theorem delivery_order (config : Config) (capacity : Nat) {setup ops : List Operation}
    (hsetup : ∀ op ∈ setup, op.Prepares) :
    let d := ((fresh config capacity).operateAll setup).value.2
    let channels := d.fanout.live
    let results := (d.operateAll ops).value.1
    let e := (d.operateAll ops).value.2
    let streams := sessions [] ops
    channels ≠ [] → (∀ c ∈ channels, (d.board.route? c).isSome = true) → d.Orderly ops →
      (∀ c ∈ channels, ∀ queue, d.board.route? c = some queue →
        received queue ops results ++ e.board.contents queue <+:
            streams.flatMap (deliveries channels c) ∧
          (e.waiting = [] → received queue ops results ++ e.board.contents queue =
            streams.flatMap (deliveries channels c))) ∧
      (∃ pending, pending.length = e.waiting.length ∧
        results.filterMap OperationResult.verdict? ++ pending = streams.map (verdict channels)) ∧
      e.fanout.counters.unitsDropped = 0 := by
  intro d channels results e streams hne hrouted ho
  have hprepared : d.Prepared := (prepared_fresh config capacity).operateAll hsetup
  obtain ⟨hflow, hempty⟩ := hprepared.flowing hrouted
  obtain ⟨due, pending, hflow', hevents, hverdicts⟩ := advanced_operateAll hne hflow ho
  refine ⟨fun c hc queue hq => ?_, ⟨pending, hflow'.length_verdicts, hverdicts.symm⟩,
    hflow'.dropped_eq⟩
  have hroute : e.board.route? c = some queue := by
    rw [Switchboard.route?, hflow'.routes_eq]
    exact hq
  have hall : streams.flatMap (deliveries channels c) =
      received queue ops results ++ e.board.contents queue ++ due c := by
    have hc' : d.board.queuedFor c ++ ([] ++ streams.flatMap (deliveries channels c)) =
        (d.board.route? c).elim [] (fun queue => received queue ops results) ++
          (e.board.queuedFor c ++ due c) := hevents c hc
    rw [hempty c hc, hq, Switchboard.queuedFor_of_route hroute] at hc'
    rw [List.append_assoc]
    exact hc'
  rw [hall]
  refine ⟨List.prefix_append _ _, fun hw => ?_⟩
  rw [hflow'.due_eq_nil hw c, List.append_nil]

/-- Two streams over two channels whose queues hold one event each. The first pass waits three
times, and the next stream begins meanwhile; the second pass waits still. -/
theorem delivery_order_one_slot :
    let frame (pts : UInt64) (isKeyframe : Bool) : AccessUnit :=
      { pts, payload := ⟨#[1]⟩, isKeyframe }
    let setup : List Operation := [.call (.request (some ⟨0⟩)), .call (.request (some ⟨1⟩)),
      .attach ⟨0⟩, .attach ⟨1⟩]
    let ops : List Operation := [
      .call (.arriveAll [frame 0 true, frame 1 false, frame 2 true]), .endStream,
      .call (.arrive (frame 10 true)), .receive 0, .poll 0, .receive 0, .poll 0, .receive 1,
      .poll 0, .endStream, .receive 0]
    let d := ((fresh {} 0).operateAll setup).value.2
    let results := (d.operateAll ops).value.1
    let e := (d.operateAll ops).value.2
    received 0 ops results ++ e.board.contents 0 <+:
        [.unit (frame 0 true).marked, .unit (frame 1 false), .endOfStream,
          .unit (frame 10 true).marked, .endOfStream] ∧
      (∃ pending, pending.length = 1 ∧ results.filterMap OperationResult.verdict? ++ pending =
        [.ok ⟨[⟨⟨0⟩, 0, 1, 2⟩, ⟨⟨1⟩, 1, 1, 1⟩], 0⟩, .ok ⟨[⟨⟨0⟩, 0, 1, 1⟩, ⟨⟨1⟩, 1, 0, 0⟩], 1⟩]) ∧
      e.fanout.counters.unitsDropped = 0 := by
  intro frame setup ops
  have hlive : ((fresh {} 0).operateAll setup).value.2.fanout.live = [⟨0⟩, ⟨1⟩] := by
    decide +kernel
  have hrouted : ∀ c ∈ ((fresh {} 0).operateAll setup).value.2.fanout.live,
      (((fresh {} 0).operateAll setup).value.2.board.route? c).isSome = true := by decide +kernel
  have hroute : ((fresh {} 0).operateAll setup).value.2.board.route? ⟨0⟩ = some 0 := by
    decide +kernel
  have horderly : ((fresh {} 0).operateAll setup).value.2.Orderly ops := by decide +kernel
  have hwaiting : (((fresh {} 0).operateAll setup).value.2.operateAll ops).value.2.waiting.length =
      1 := by decide +kernel
  have hdeliveries : (sessions [] ops).flatMap (deliveries [⟨0⟩, ⟨1⟩] ⟨0⟩) =
      [.unit (frame 0 true).marked, .unit (frame 1 false), .endOfStream,
        .unit (frame 10 true).marked, .endOfStream] := by decide +kernel
  have hverdicts : (sessions [] ops).map (verdict [⟨0⟩, ⟨1⟩]) =
      [.ok ⟨[⟨⟨0⟩, 0, 1, 2⟩, ⟨⟨1⟩, 1, 1, 1⟩], 0⟩,
        .ok ⟨[⟨⟨0⟩, 0, 1, 1⟩, ⟨⟨1⟩, 1, 0, 0⟩], 1⟩] := by
    with_unfolding_all rfl
  have horder := delivery_order {} 0 (show ∀ op ∈ setup, op.Prepares by decide)
    (by rw [hlive]; exact List.cons_ne_nil _ _) hrouted horderly
  obtain ⟨hreceived, ⟨pending, hlength, hpending⟩, hdropped⟩ := horder
  have hzero := (hreceived ⟨0⟩ (by rw [hlive]; exact List.mem_cons_self) 0 hroute).1
  rw [hlive, hdeliveries] at hzero
  rw [hlive, hverdicts] at hpending
  exact ⟨hzero, ⟨pending, hlength.trans hwaiting, hpending⟩, hdropped⟩

end StreamFanout.Dispatcher
