import Mathlib.Data.Set.Defs
import StreamFanout.Proofs.Delivery.Trails

/-!
Isolation: what some consumers do is nothing to the others. Consumers may close or drop their queues
and channels may be attached again or detached at any moment of a pass; on each channel that is left
alone the pass puts the same events as if all had been.
-/
namespace StreamFanout.Dispatcher

variable {d : Dispatcher} {kept : Channel → Prop} {us : List AccessUnit}

/-- The pass of an end of stream waits, and what it has put on the queue of a channel that is kept
is the beginning of what the channel is to receive; or the end of stream is over, and that is
all. -/
theorem Attended.endStream (h : d.Attended kept) (ho : d.Open us) (hl : d.fanout.live ≠ [])
    (limit : Option Nat) :
    (∃ p, (d.endStream limit).value.1 = .pending d.nextTicket ∧
        Underway d.fanout.grouping.groups d.fanout.plan kept d.nextTicket p
          (d.endStream limit).value.2 ∧
        ∀ c k, kept c → d.board.Dedicated c k →
          deliveries d.fanout.live c us = d.added (d.endStream limit).value.2 k ++ p.due c) ∨
      ∃ verdict, (d.endStream limit).value.1 = .finished (.streamEnded verdict) ∧
        Names d.fanout.plan kept verdict ∧
        ∀ c k, kept c → d.board.Dedicated c k →
          d.added (d.endStream limit).value.2 k = deliveries d.fanout.live c us := by
  by_cases hg : d.fanout.grouping.groups = []
  · rw [Dispatcher.endStream, Logged.value_bind, Fanout.endStream_empty hg hl]
    refine .inr ⟨_, rfl, (fun failed hf => by cases hf), fun c k hc _ => ?_⟩
    have hus := List.map_eq_nil_iff.mp (ho.groups.groups_eq_nil_iff.mp hg)
    rw [deliveries, if_pos hus]
    exact added_of_contents (List.append_nil _).symm
  · obtain ⟨hwhole, hdue⟩ := Fanout.whole_opening hl ho.nodup
    have hdeliveries (c : Channel) (hc : kept c) :
        deliveries d.fanout.live c us = d.fanout.opening.due c := by
      obtain ⟨b, hb, rfl⟩ := Fanout.exists_block (h.live c hc)
      rw [deliveries_of_groups ho.groups hg ho.nodup hb, hdue b hb]
    obtain ⟨x, journal, ht, -⟩ := h.sound
    obtain ⟨hnext, hstays⟩ := h.afterEndStream limit
    let started : Dispatcher := { d with fanout := { d.fanout with grouping := {} } }
    let task : Task := .pass d.fanout.opening
    have hputs := puts_proceed (d := started) d.nextTicket (limit.getD task.stepsLeft)
      (Fanout.nodup_blocks ho.nodup) (fun c hc => d.fanout.channels_blocks.symm ▸ h.live c hc)
      (hwhole.mono fun c _ => trivial) (fun c hc => ⟨h.live c hc, h.routed c hc⟩)
      fun _ _ _ _ _ _ _ hj => absurd hj (Option.not_mem_none _)
    have henters := started.enters_start task limit
    have hvalue : (d.endStream limit).value = (started.start task limit).value := by
      rw [Dispatcher.endStream, Logged.value_bind, Fanout.endStream_opens (.inr hg)]
    rw [hvalue] at hnext hstays ⊢
    generalize (proceed _ _ _ _ _).value = r at hputs henters
    generalize (started.start task limit).value = s at hnext hstays henters ⊢
    cases hputs with
    | ends verdict e hnames hc =>
      cases henters
      refine .inr ⟨verdict, rfl, hnames, fun c k hk hb => ?_⟩
      rw [hdeliveries c hk]
      exact added_of_contents (hc c k hk hb)
    | waits queue p' e hk hc =>
      cases henters
      refine .inl ⟨p', rfl, ⟨hnext, hk, queue, ?_, fun c k hk hb => ?_⟩, fun c k hk hb => ?_⟩
      · show (d.waiting ++ [(⟨d.nextTicket, queue, .pass p'⟩ : WaitingCall)]).find? _ = _
        rw [List.find?_append, ht.find?_nextTicket, Option.none_or]
        exact List.find?_cons_of_pos (decide_eq_true rfl)
      · exact (hc c k hk ((hstays c k hk).mp hb)).2.1
      · obtain ⟨-, -, put, hcontents, hdue⟩ := hc c k hk hb
        rw [hdeliveries c hk]
        exact hdue.trans (congrArg (· ++ p'.due c) (added_of_contents hcontents).symm)

/-- Without channels an end of stream that ends gives back that there are none. -/
theorem passTrail_discarding {x : Exchange} (h : d.Tracks x) (hl : d.fanout.live = [])
    {limit : Option Nat} {ops : List Operation} {result : CallResult}
    (hr : (d.passTrail limit ops).2 = some result) :
    result = .streamEnded (.error (.noChannels d.fanout.grouping.groups.length)) := by
  let started : Dispatcher := { d with fanout := { d.fanout with grouping := {} } }
  let task : Task := .pass (.discarding d.fanout.grouping.groups)
  have hvalue : (d.endStream limit).value = (started.start task limit).value := by
    rw [Dispatcher.endStream, Logged.value_bind, Fanout.endStream_opens (.inl hl), Fanout.opening,
      if_pos hl]
  have henters := started.enters_start task limit
  have hnext := (h.operate (.endStream limit)).1
  have hstate : (d.operate (.endStream limit)).value.2 = (d.endStream limit).value.2 := rfl
  rw [hstate] at hnext
  rw [← hvalue] at henters
  cases hn : limit.getD task.stepsLeft with
  | zero =>
    rw [hn] at henters
    generalize hs : (d.endStream limit).value = s at henters hnext
    cases henters with
    | waiting _ _ _ _ =>
      rw [passTrail_pending (congrArg Prod.fst hs), hs] at hr
      refine trail_discarding hnext ?_ hr
      show (d.waiting ++ [(⟨d.nextTicket, none, task⟩ : WaitingCall)]).find? _ = _
      rw [List.find?_append, h.find?_nextTicket, Option.none_or]
      exact List.find?_cons_of_pos (decide_eq_true rfl)
  | succ n =>
    rw [hn] at henters
    generalize hs : (d.endStream limit).value = s at henters
    cases henters with
    | finished _ _ _ _ =>
      rw [passTrail_finished (congrArg Prod.fst hs)] at hr
      exact (Option.some.inj hr).symm

/-- When the pass of an end of stream has ended, its trail on the channels that are kept is what
they are to receive. -/
theorem Attended.passTrail (h : d.Attended kept) (ho : d.Open us) {limit : Option Nat}
    {ops : List Operation}
    (hops : ∀ op ∈ ops, ∀ c k, kept c → d.board.Dedicated c k → op.Spares c k)
    {result : CallResult} (hr : (d.passTrail limit ops).2 = some result) :
    ∃ verdict, result = .streamEnded verdict ∧ Names d.fanout.plan kept verdict ∧
      ∀ c k, kept c → d.board.Dedicated c k →
        (d.passTrail limit ops).1 k = deliveries d.fanout.live c us := by
  by_cases hl : d.fanout.live = []
  · obtain ⟨x, journal, ht, -⟩ := h.sound
    refine ⟨_, passTrail_discarding ht hl hr, (fun failed hf => by cases hf), fun c k hc _ => ?_⟩
    have hlive := h.live c hc
    rw [hl] at hlive
    cases hlive
  obtain ⟨-, hstays⟩ := h.afterEndStream limit
  rcases h.endStream ho hl limit with ⟨p, hpending, hu, hdue⟩ | ⟨verdict, hfinished, hnames, hputs⟩
  · rw [passTrail_pending hpending] at hr ⊢
    obtain ⟨verdict, hverdict, hnames, htrail⟩ := hu.trail (Fanout.nodup_blocks ho.nodup)
      (fun c hc => d.fanout.channels_blocks.symm ▸ h.live c hc)
      (fun op hop c k hk hb => hops op hop c k hk ((hstays c k hk).mp hb)) hr
    refine ⟨verdict, hverdict, hnames, fun c k hk hb => ?_⟩
    rw [hdue c k hk hb, ← htrail c k hk ((hstays c k hk).mpr hb)]
  · rw [passTrail_finished hfinished] at hr ⊢
    exact ⟨verdict, (Option.some.inj hr).symm, hnames, hputs⟩

/-- The consumer of `c` listens on the queue that the channel leads to, and goes on doing so: no
operation closes or drops the queue, attaches the channel again, detaches or releases it. -/
def Undisturbed (d : Dispatcher) (c : Channel) (ops : List Operation) : Prop :=
  ∃ k, d.board.route? c = some k ∧ d.board.consumer? k = some .listening ∧
    ∀ op ∈ ops, op.Spares c k

theorem attended_of_undisturbed (config : Config) (capacity : Nat) (before during : List Operation)
    {kept : Channel → Prop} :
    let d := ((fresh config capacity).operateAll before).value.2
    (∀ c, kept c → c ∈ d.fanout.live ∧ d.Undisturbed c during) →
      d.Attended kept ∧ ∀ op ∈ during, ∀ c k, kept c → d.board.Dedicated c k → op.Spares c k := by
  intro d hkept
  obtain ⟨ht, -⟩ := (tracks_fresh config capacity).operateAll before
  have hj : Exchange.Traced _ _ := Exchange.run_induction (fun _ _ a h => h.act a)
    (Exchange.traced_fresh capacity) ((fresh config capacity).actsAll before)
  refine ⟨⟨⟨_, _, ht, hj⟩, ⟨_, open_operateAll config capacity before⟩, fun c hc => (hkept c hc).1,
    fun c hc => ?_⟩, fun op hop c k hc hb => ?_⟩
  · obtain ⟨-, k, hr, hl, -⟩ := hkept c hc
    refine ⟨k, ht.board_eq ▸ hj.dedicated ?_ ?_⟩
    · rw [ht.board_eq]
      exact hr
    · rw [ht.board_eq]
      exact hl
  · obtain ⟨-, k', hr, -, hspares⟩ := hkept c hc
    rw [Option.some.inj (hb.route_eq.symm.trans hr)]
    exact hspares op hop

/-- `F` are the channels whose consumers may do as they like while a pass is under way: also between
any two of its steps, since the end of stream and each poll go on for as many steps as one likes. If
the pass ends, it has put on the queue of each other channel the units of its block in order of
arrival and then the end of the stream, as it does in any run that disturbs no channel; and it names
none but channels in `F`. -/
theorem consumers_isolated (config : Config) (capacity : Nat) (before : List Operation)
    (limit : Option Nat) (during : List Operation) (F : Set Channel) :
    let d := ((fresh config capacity).operateAll before).value.2
    let channels := d.fanout.live
    let us := openStream (before.filterMap Operation.step?)
    (∀ c ∈ channels, c ∉ F → d.Undisturbed c during) →
      ∀ result, (d.passTrail limit during).2 = some result →
        ∃ verdict, result = .streamEnded verdict ∧
          (∀ c ∈ channels, c ∉ F → ∀ k, d.board.route? c = some k →
            (d.passTrail limit during).1 k = deliveries channels c us ∧
            ∀ limit' calm, (∀ e ∈ channels, d.Undisturbed e calm) →
              (d.passTrail limit' calm).2.isSome = true →
              (d.passTrail limit' calm).1 k = (d.passTrail limit during).1 k) ∧
          ∀ failed, verdict = .error (.pushFailed failed) → ∀ f ∈ failed, f ∈ F := by
  intro d channels us hothers result hr
  have ho : d.Open us := open_operateAll config capacity before
  obtain ⟨h, hops⟩ := attended_of_undisturbed config capacity before during
    fun c (hc : c ∈ channels ∧ c ∉ F) => ⟨hc.1, hothers c hc.1 hc.2⟩
  obtain ⟨verdict, hverdict, hnames, hputs⟩ := h.passTrail ho hops hr
  refine ⟨verdict, hverdict, fun c hc hF k hk => ?_, fun failed hf f hmem => ?_⟩
  · obtain ⟨k', hb⟩ := h.routed c ⟨hc, hF⟩
    obtain rfl := Option.some.inj (hb.route_eq.symm.trans hk)
    have hput := hputs c k' ⟨hc, hF⟩ hb
    refine ⟨hput, fun limit' calm hcalm hended => ?_⟩
    obtain ⟨result', hr'⟩ := Option.isSome_iff_exists.mp hended
    obtain ⟨hall, hops'⟩ := attended_of_undisturbed config capacity before calm
      fun e (he : e ∈ channels) => ⟨he, hcalm e he⟩
    obtain ⟨-, -, -, hputs'⟩ := hall.passTrail ho hops' hr'
    exact (hputs' c k' hc hb).trans hput.symm
  · obtain ⟨hblock, hkept⟩ := hnames failed hf f hmem
    have hlive : f ∈ d.fanout.blocks.map Block.channel := hblock
    rw [Fanout.channels_blocks] at hlive
    exact Classical.not_not.mp fun hF => hkept ⟨hlive, hF⟩

/-- Two channels whose queues have room for all that is to come, so that no queue makes the pass
wait. The consumer of the second closes its queue when the first unit of the first has been pushed,
and the next one has not. -/
theorem consumers_isolated_closed_queue :
    let frame (pts : UInt64) (isKeyframe : Bool) : AccessUnit :=
      { pts, payload := ⟨#[1]⟩, isKeyframe }
    let before : List Operation := [.call (.request (some ⟨0⟩)), .call (.request (some ⟨1⟩)),
      .attach ⟨0⟩, .attach ⟨1⟩, .call (.arriveAll [frame 0 true, frame 1 false, frame 2 true])]
    let during : List Operation := [.poll 0 (some 1), .close 1, .poll 0]
    let calm : List Operation := [.receive 0, .poll 0]
    let d := ((fresh {} 8).operateAll before).value.2
    (d.passTrail (some 1) during).2 = some (.streamEnded (.error (.pushFailed [⟨1⟩]))) ∧
      (d.passTrail (some 1) during).1 0 =
        [.unit (frame 0 true).marked, .unit (frame 1 false), .endOfStream] ∧
      (d.passTrail (some 3) calm).1 0 = (d.passTrail (some 1) during).1 0 := by
  intro frame before during calm d
  have hlive : d.fanout.live = [⟨0⟩, ⟨1⟩] := by decide +kernel
  have hroute : d.board.route? ⟨0⟩ = some 0 := by decide +kernel
  have hlistens : d.board.consumer? 0 = some .listening := by decide +kernel
  have hroute' : d.board.route? ⟨1⟩ = some 1 := by decide +kernel
  have hlistens' : d.board.consumer? 1 = some .listening := by decide +kernel
  have hresult : (d.passTrail (some 1) during).2 =
      some (.streamEnded (.error (.pushFailed [⟨1⟩]))) := by decide +kernel
  have hended : (d.passTrail (some 3) calm).2.isSome = true := by decide +kernel
  have hdeliveries : deliveries [⟨0⟩, ⟨1⟩] ⟨0⟩ (openStream (before.filterMap Operation.step?)) =
      [.unit (frame 0 true).marked, .unit (frame 1 false), .endOfStream] := by decide +kernel
  have hothers : ∀ c ∈ d.fanout.live, c ∉ ({⟨1⟩} : Set Channel) → d.Undisturbed c during := by
    rw [hlive]
    intro c hc hF
    rcases List.mem_pair.mp hc with rfl | rfl
    · exact ⟨0, hroute, hlistens, by simp [during, Operation.Spares]⟩
    · exact absurd rfl hF
  have hcalm : ∀ c ∈ d.fanout.live, d.Undisturbed c calm := by
    rw [hlive]
    intro c hc
    rcases List.mem_pair.mp hc with rfl | rfl
    · exact ⟨0, hroute, hlistens, by simp [calm, Operation.Spares]⟩
    · exact ⟨1, hroute', hlistens', by simp [calm, Operation.Spares]⟩
  obtain ⟨verdict, -, hputs, -⟩ :=
    consumers_isolated {} 8 before (some 1) during {⟨1⟩} hothers _ hresult
  obtain ⟨hput, hsame⟩ := hputs ⟨0⟩ (hlive ▸ List.mem_cons_self)
    (show (⟨0⟩ : Channel) ≠ ⟨1⟩ by decide) 0 hroute
  have hput : (d.passTrail (some 1) during).1 0 = deliveries d.fanout.live ⟨0⟩ _ := hput
  rw [hlive, hdeliveries] at hput
  exact ⟨hresult, hput, hsame (some 3) calm hcalm hended⟩

end StreamFanout.Dispatcher
