import StreamFanout.Delivery.Operation
import StreamFanout.Proofs.Delivery.Passes
import StreamFanout.Proofs.Delivery.Sessions
import StreamFanout.Proofs.HostCall

/-!
What the operations do to a dispatcher that distributes one stream at a time over listening
consumers. For each channel, what was queued and due before an operation is what the operation
reads there, then what is queued and due after it; only an end of stream makes more events due.
-/
namespace StreamFanout

def HostCall.changesChannels : HostCall → Bool
  | .request _ | .requestNamed _ | .release _ => true
  | _ => false

theorem Fanout.roster_perform (f : Fanout) {call : HostCall} (h : call.changesChannels = false) :
    (f.perform call).value.2.roster = f.roster := by
  cases call with
  | arrive u => exact congrArg (fun p => p.2.roster) (f.arrive_value u)
  | arriveAll us => exact f.roster_arriveAll us
  | live | stats | config => rfl
  | request | requestNamed | release => cases h

def CallResult.verdict? : CallResult → Option (Except FanoutError Report)
  | .streamEnded result => some result
  | _ => none

def Started.verdict? : Started → Option (Except FanoutError Report)
  | .finished result => result.verdict?
  | .pending _ => none

namespace Dispatcher

variable {routes : List (Channel × Nat)} {channels : List Channel} {us : List AccessUnit}
  {d : Dispatcher}
  {due : Channel → List ConsumerEvent} {verdicts : List (Except FanoutError Report)}

/-- What is due to each channel from the calls that wait, and what they will give back: none
waits, or one pass that has lost nothing. -/
inductive Bears (channels : List Channel) (d : Dispatcher) :
    (Channel → List ConsumerEvent) → List (Except FanoutError Report) → Prop
  | idle (hw : d.waiting = []) : Bears channels d (fun _ => []) []
  | busy (ticket : Nat) (queue : Option Nat) (p : Pass) (gops : List Gop)
    (hw : d.waiting = [⟨ticket, queue, .pass p⟩]) (hq : d.board.Leads queue p)
    (hp : (Progress.waiting p).Whole gops (Partition.across gops.length channels)) :
    Bears channels d (p.due ·) [.ok (fullReport gops (Partition.across gops.length channels))]

/-- A dispatcher with `us` taken in since the last end of stream, `due` still to be sent on the
live channels and `verdicts` still to be given back. -/
structure Flowing (routes : List (Channel × Nat)) (channels : List Channel)
    (us : List AccessUnit) (d : Dispatcher) (due : Channel → List ConsumerEvent)
    (verdicts : List (Except FanoutError Report)) : Prop where
  routes_eq : d.board.routes = routes
  live_eq : d.fanout.live = channels
  nodup : channels.Nodup
  groups : d.fanout.grouping.Groups (us.map AccessUnit.marked)
  dropped_eq : d.fanout.counters.unitsDropped = 0
  wired : d.board.Wired channels
  serves : d.board.Serves d.waiting
  bears : d.Bears channels due verdicts

/-- An operation has left `d`: the `events` that lay ahead on each channel are those that it `read`
and those that lie ahead of `d`, and likewise for the verdicts. -/
def Advanced (routes : List (Channel × Nat)) (channels : List Channel) (us : List AccessUnit)
    (events : Channel → List ConsumerEvent) (verdicts : List (Except FanoutError Report))
    (read : Channel → List ConsumerEvent) (told : List (Except FanoutError Report))
    (d : Dispatcher) : Prop :=
  ∃ due verdicts', d.Flowing routes channels us due verdicts' ∧
    (∀ c ∈ channels, events c = read c ++ (d.board.queuedFor c ++ due c)) ∧
    verdicts = told ++ verdicts'

/-- What lies ahead of an operation and what the operations after it add is read in this order. -/
theorem Advanced.trans {us' : List AccessUnit} {d' : Dispatcher}
    {events read read' more : Channel → List ConsumerEvent}
    {told told' moreVerdicts : List (Except FanoutError Report)}
    (h : Advanced routes channels us events verdicts read told d)
    (h' : ∀ due v, d.Flowing routes channels us due v → Advanced routes channels us'
      (fun c => d.board.queuedFor c ++ (due c ++ more c)) (v ++ moreVerdicts) read' told' d') :
    Advanced routes channels us' (fun c => events c ++ more c) (verdicts ++ moreVerdicts)
      (fun c => read c ++ read' c) (told ++ told') d' := by
  obtain ⟨due, v, hflow, hevents, hverdicts⟩ := h
  obtain ⟨due', v', hflow', hevents', hverdicts'⟩ := h' due v hflow
  refine ⟨due', v', hflow', fun c hc => ?_, ?_⟩
  · have hahead : d.board.queuedFor c ++ (due c ++ more c) =
        read' c ++ (d'.board.queuedFor c ++ due' c) := hevents' c hc
    calc events c ++ more c
        = read c ++ (d.board.queuedFor c ++ (due c ++ more c)) := by
          rw [hevents c hc]
          simp only [List.append_assoc]
      _ = read c ++ read' c ++ (d'.board.queuedFor c ++ due' c) := by
          rw [hahead, List.append_assoc]
  · rw [hverdicts, List.append_assoc, hverdicts', List.append_assoc]

theorem Flowing.length_verdicts (h : d.Flowing routes channels us due verdicts) :
    verdicts.length = d.waiting.length := by
  cases h.bears with
  | idle hw => rw [hw]; rfl
  | busy t queue p gops hw => rw [hw]; rfl

theorem Flowing.due_eq_nil (h : d.Flowing routes channels us due verdicts) (hw : d.waiting = [])
    (c : Channel) : due c = [] := by
  cases h.bears with
  | idle => rfl
  | busy t queue p gops hw' => rw [hw] at hw'; cases hw'

/-- A pass that was carried on and waits. -/
theorem Flowing.wait (h : d.Flowing routes channels us due verdicts) {gops : List Gop} {p p' : Pass}
    {b : Switchboard} {ticket : Nat} {queue : Option Nat} (next : Nat)
    (hp : (Progress.waiting p').Whole gops (Partition.across gops.length channels))
    (hq : b.Leads queue p') (hs : b.Serves [⟨ticket, queue, .pass p'⟩])
    (hm : d.board.Moves channels b (p.due ·) (p'.due ·)) :
    Flowing routes channels us
      { d with board := b, waiting := [⟨ticket, queue, .pass p'⟩], nextTicket := next } (p'.due ·)
      [.ok (fullReport gops (Partition.across gops.length channels))] where
  routes_eq := hm.routes_eq.trans h.routes_eq
  live_eq := h.live_eq
  nodup := h.nodup
  groups := h.groups
  dropped_eq := h.dropped_eq
  wired := h.wired.congr hm.routes_eq hm.size_eq
  serves := hs
  bears := .busy ticket queue p' gops rfl hq hp

/-- A pass that was carried on to its end. -/
theorem Flowing.finish (h : d.Flowing routes channels us due verdicts) {p : Pass} {b : Switchboard}
    {lanes : List Lane} (hl : Lane.totalDropped lanes = 0) (hs : b.Serves [])
    (hm : d.board.Moves channels b (p.due ·) fun _ => []) :
    Flowing routes channels us
      { d with board := b, fanout := d.fanout.booked lanes, waiting := [] } (fun _ => []) [] where
  routes_eq := hm.routes_eq.trans h.routes_eq
  live_eq := h.live_eq
  nodup := h.nodup
  groups := h.groups
  dropped_eq := by
    show d.fanout.counters.unitsDropped + Lane.totalDropped lanes = 0
    rw [h.dropped_eq, hl]
  wired := h.wired.congr hm.routes_eq hm.size_eq
  serves := hs
  bears := .idle rfl

theorem advanced_start (h : d.Flowing routes channels us (fun _ => []) []) {gops : List Gop}
    {p : Pass} (hp : (Progress.waiting p).Whole gops (Partition.across gops.length channels))
    (limit : Option Nat) :
    Advanced routes channels us (fun c => d.board.queuedFor c ++ p.due c)
      [.ok (fullReport gops (Partition.across gops.length channels))] (fun _ => [])
      (d.start (.pass p) limit).value.1.verdict?.toList (d.start (.pass p) limit).value.2 := by
  have hwait : d.waiting = [] := List.eq_nil_of_length_eq_zero h.length_verdicts.symm
  have hserves := h.serves
  rw [hwait] at hserves
  have hcarries := carries_proceed d.nextTicket (limit.getD (Task.pass p).stepsLeft) h.live_eq
    (Partition.map_channel_blocksOf gops.length channels) h.nodup hp h.wired
    (fun k hk => by cases hk) (Switchboard.serves_ready.mpr hserves)
  simp only [start, Logged.value_bind]
  generalize (d.proceed _ _ _ _).value = r at hcarries ⊢
  cases hcarries with
  | waits queue p' b' hp' hq hs hm =>
    refine ⟨_, _, ?_, fun c hc => hm.conserved c hc, rfl⟩
    have hflow := h.wait (d.nextTicket + 1) hp' hq hs hm
    simp only [hwait]
    exact hflow
  | ends lanes b' hl hs hm =>
    have hflow := h.finish hl hs hm
    rw [← hwait] at hflow
    exact ⟨_, _, hflow, fun c hc => hm.conserved c hc, rfl⟩

/-- Polling moves what is due to the queues, and tells what is over. -/
theorem advanced_poll (h : d.Flowing routes channels us due verdicts) (ticket : Nat)
    (limit : Option Nat) :
    Advanced routes channels us (fun c => d.board.queuedFor c ++ due c) verdicts (fun _ => [])
      ((d.poll ticket limit).value.1.bind CallResult.verdict?).toList
      (d.poll ticket limit).value.2 := by
  have hnone (hf : d.waiting.find? (·.ticket = ticket) = none) :
      (d.poll ticket limit).value = (none, d) := by
    rw [poll, hf]
    rfl
  cases h.bears with
  | idle hw =>
    rw [hnone (by rw [hw]; rfl)]
    exact ⟨_, _, h, fun c _ => rfl, rfl⟩
  | busy t queue p gops hw hq hp =>
    by_cases ht : t = ticket
    · subst ht
      have hserves := h.serves
      rw [hw] at hserves
      have hcarries := carries_proceed t (limit.getD (Task.pass p).stepsLeft) h.live_eq
        (Partition.map_channel_blocksOf gops.length channels) h.nodup hp h.wired hq hserves
      have hfind : d.waiting.find? (·.ticket = t) = some ⟨t, queue, .pass p⟩ := by
        rw [hw, List.find?_cons_of_pos (by simp)]
      simp only [poll, hfind, Logged.value_bind]
      generalize (d.proceed _ _ _ _).value = r at hcarries ⊢
      cases hcarries with
      | waits queue' p' b' hp' hq' hs hm =>
        have hflow := h.wait d.nextTicket hp' hq' hs hm
        have hreplace : WaitingCall.replace t (some ⟨t, queue', .pass p'⟩) d.waiting =
            [⟨t, queue', .pass p'⟩] := by
          rw [hw, WaitingCall.replace, if_pos rfl]
          rfl
        rw [← hreplace] at hflow
        exact ⟨_, _, hflow, fun c hc => hm.conserved c hc, rfl⟩
      | ends lanes b' hl hs hm =>
        have hflow := h.finish hl hs hm
        have hreplace : WaitingCall.replace t none d.waiting = [] := by
          rw [hw, WaitingCall.replace, if_pos rfl]
          rfl
        rw [← hreplace] at hflow
        exact ⟨_, _, hflow, fun c hc => hm.conserved c hc, rfl⟩
    · rw [hnone (by rw [hw]; simp [ht])]
      exact ⟨_, _, h, fun c _ => rfl, rfl⟩

/-- An end of stream makes the deliveries of the stream due, and its verdict. -/
theorem advanced_endStream (h : d.Flowing routes channels us due verdicts) (hw : d.waiting = [])
    (hne : channels ≠ []) (limit : Option Nat) :
    Advanced routes channels []
      (fun c => d.board.queuedFor c ++ (due c ++ deliveries channels c us))
      (verdicts ++ [verdict channels us]) (fun _ => [])
      (d.endStream limit).value.1.verdict?.toList (d.endStream limit).value.2 := by
  cases h.bears with
  | busy t queue p gops hw' => rw [hw] at hw'; cases hw'
  | idle _ =>
  have hlive := h.live_eq
  subst hlive
  let emptied := { d with fanout := { d.fanout with grouping := {} } }
  have hflow : emptied.Flowing routes d.fanout.live [] (fun _ => []) [] :=
    { h with groups := Grouping.groups_empty, bears := .idle hw }
  by_cases hg : d.fanout.grouping.groups = []
  · have hus := List.map_eq_nil_iff.mp (h.groups.groups_eq_nil_iff.mp hg)
    have hvalue : (d.endStream limit).value =
        (.finished (.streamEnded (.error .noData)), emptied) := by
      rw [endStream, Logged.value_bind, Fanout.endStream_empty hg hne]
      rfl
    rw [hvalue, hus]
    exact ⟨_, _, hflow, fun c _ => rfl, rfl⟩
  · obtain ⟨hwhole, hdue⟩ := Fanout.whole_opening hne h.nodup
    have hvalue : (d.endStream limit).value =
        (emptied.start (.pass d.fanout.opening) limit).value := by
      rw [endStream, Logged.value_bind, Fanout.endStream_opens (.inr hg)]
    have hdeliveries : ∀ c ∈ d.fanout.live,
        deliveries d.fanout.live c us = d.fanout.opening.due c := by
      intro c hc
      obtain ⟨b, hb, rfl⟩ := Fanout.exists_block hc
      rw [deliveries_of_groups h.groups hg h.nodup hb, hdue b hb]
    obtain ⟨due', verdicts', hflow', hevents, hverdicts⟩ := advanced_start hflow hwhole limit
    rw [hvalue, verdict_of_groups h.groups hg hne]
    refine ⟨due', verdicts', hflow', fun c hc => ?_, hverdicts⟩
    show d.board.queuedFor c ++ deliveries d.fanout.live c us = _
    rw [← hevents c hc, hdeliveries c hc]

/-- A consumer takes what lies ahead first on its channel. -/
theorem advanced_receive (h : d.Flowing routes channels us due verdicts) (queue : Nat) :
    Advanced routes channels us (fun c => d.board.queuedFor c ++ due c) verdicts
      (fun c => if routes.lookup c = some queue then (d.receive queue).1.event?.toList else [])
      [] (d.receive queue).2 := by
  obtain ⟨hroutes, hsize, hserves, hevents⟩ := Switchboard.receive_spec h.wired h.serves queue
  have hflow : (d.receive queue).2.Flowing routes channels us due verdicts := by
    refine { h with
      routes_eq := hroutes.trans h.routes_eq
      wired := h.wired.congr hroutes hsize
      serves := hserves
      bears := ?_ }
    cases h.bears with
    | idle hw => exact .idle hw
    | busy t k p gops hw hq hp => exact .busy t k p gops hw (hq.congr hroutes) hp
  refine ⟨_, _, hflow, fun c hc => ?_, rfl⟩
  show d.board.queuedFor c ++ due c = _
  rw [hevents c hc, List.append_assoc, Switchboard.route?, h.routes_eq]
  rfl

/-- A call that leaves the channels alone only takes in units. -/
theorem advanced_perform (h : d.Flowing routes channels us due verdicts) {call : HostCall}
    (hc : call.changesChannels = false) :
    Advanced routes channels (us ++ accepted call.arrivals)
      (fun c => d.board.queuedFor c ++ due c) verdicts (fun _ => []) []
      (d.perform call).value.2 := by
  have habsorbs := d.fanout.perform_absorbs call
  have hflow : (d.perform call).value.2.Flowing routes channels
      (us ++ accepted call.arrivals) due verdicts := by
    refine { h with
      live_eq := ?_
      groups := ?_
      dropped_eq := habsorbs.dropped_eq.trans h.dropped_eq
      bears := ?_ }
    · rw [← h.live_eq]
      exact congrArg Roster.live (d.fanout.roster_perform hc)
    · rw [List.map_append]
      exact habsorbs.groups _ h.groups
    · cases h.bears with
      | idle hw => exact .idle hw
      | busy t k p gops hw hq hp => exact .busy t k p gops hw hq hp
  exact ⟨_, _, hflow, fun c _ => rfl, rfl⟩

end Dispatcher

end StreamFanout
