import StreamFanout.Proofs.Delivery.Flow
import StreamFanout.Proofs.Interleaving.Streams

/-!
Runs of a dispatcher that distributes one stream at a time: units come in, streams end, passes are
polled and consumers read, in any order but for one rule: no stream ends while a pass waits.
-/
namespace StreamFanout

def Operation.step? : Operation → Option Step
  | .call c => some (.call c)
  | .endStream _ => some .endStream
  | _ => none

/-- The streams that some operations end, the first of them begun with `us`. -/
def sessions (us : List AccessUnit) (ops : List Operation) : List (List AccessUnit) :=
  endedStreams us (ops.filterMap Operation.step?)

def OperationResult.verdict? : OperationResult → Option (Except FanoutError Report)
  | .started s => s.verdict?
  | .polled result => result.bind CallResult.verdict?
  | _ => none

def readOn? (queue : Nat) : Operation × OperationResult → Option ConsumerEvent
  | (.receive k, .read reading) => if k = queue then reading.event? else none
  | _ => none

def received (queue : Nat) (ops : List Operation) (results : List OperationResult) :
    List ConsumerEvent :=
  (ops.zip results).filterMap (readOn? queue)

namespace Dispatcher

/-- The operations after the channels are set up: no channel or route changes any more, all
consumers keep listening, and a stream may end when the pass before it is over. -/
def Allows (d : Dispatcher) : Operation → Prop
  | .call call => call.changesChannels = false
  | .endStream _ => d.waiting = []
  | .receive _ | .poll .. => True
  | _ => False

instance (d : Dispatcher) : DecidablePred d.Allows
  | .call call => inferInstanceAs (Decidable (call.changesChannels = false))
  | .endStream _ => inferInstanceAs (Decidable (d.waiting = []))
  | .receive _ | .poll .. => .isTrue trivial
  | .push .. | .sendEnd _ | .attach _ | .detach _ | .close _ | .drop _ | .cancel _ => .isFalse id

def Orderly (d : Dispatcher) : List Operation → Prop
  | [] => True
  | op :: ops => d.Allows op ∧ (d.operate op).value.2.Orderly ops

instance decidableOrderly : (d : Dispatcher) → (ops : List Operation) → Decidable (d.Orderly ops)
  | _, [] => .isTrue trivial
  | d, op :: ops =>
    have := decidableOrderly (d.operate op).value.2 ops
    inferInstanceAs (Decidable (d.Allows op ∧ (d.operate op).value.2.Orderly ops))

variable {routes : List (Channel × Nat)} {channels : List Channel} {us : List AccessUnit}
  {d : Dispatcher} {due : Channel → List ConsumerEvent}
  {verdicts : List (Except FanoutError Report)}

def readFor (routes : List (Channel × Nat)) (op : Operation) (result : OperationResult)
    (c : Channel) : List ConsumerEvent :=
  (routes.lookup c).elim [] fun queue => (readOn? queue (op, result)).toList

theorem readFor_eq_nil (op : Operation) (h : ∀ k, op ≠ .receive k) (result : OperationResult) :
    readFor routes op result = fun _ => [] := by
  have hread (queue : Nat) : readOn? queue (op, result) = none := by
    cases op with
    | receive k => exact absurd rfl (h k)
    | _ => rfl
  funext c
  simp only [readFor, hread]
  cases routes.lookup c <;> rfl

/-- Only an end of stream puts more ahead, and only reading takes events away. -/
theorem advanced_operate (h : d.Flowing routes channels us due verdicts) (hne : channels ≠ [])
    {op : Operation} (ha : d.Allows op) :
    Advanced routes channels (op.step?.elim us (Step.onto us))
      (fun c => d.board.queuedFor c ++
        (due c ++ (sessions us [op]).flatMap (deliveries channels c)))
      (verdicts ++ (sessions us [op]).map (verdict channels))
      (readFor routes op (d.operate op).value.1) (d.operate op).value.1.verdict?.toList
      (d.operate op).value.2 := by
  cases op with
  | call call =>
    have hs : sessions us [.call call] = [] := rfl
    rw [readFor_eq_nil (.call call) (fun _ h => by cases h), hs]
    simpa [operate, OperationResult.verdict?, Operation.step?, Step.onto] using
      advanced_perform h ha
  | endStream limit =>
    have hs : sessions us [.endStream limit] = [us] := rfl
    rw [readFor_eq_nil (.endStream limit) (fun _ h => by cases h), hs]
    simpa [operate, OperationResult.verdict?, Operation.step?, Step.onto] using
      advanced_endStream h ha hne limit
  | receive queue =>
    have hs : sessions us [.receive queue] = [] := rfl
    have hread : readFor routes (.receive queue) (.read (d.receive queue).1) = fun c =>
        if routes.lookup c = some queue then (d.receive queue).1.event?.toList else [] := by
      funext c
      cases hc : routes.lookup c with
      | none => simp [readFor, hc]
      | some k =>
        by_cases hk : queue = k
        · simp [readFor, readOn?, hc, hk]
        · simp [readFor, readOn?, hc, hk, Ne.symm hk]
    rw [hs]
    simpa [operate, OperationResult.verdict?, Operation.step?, hread] using
      advanced_receive h queue
  | poll ticket limit =>
    have hs : sessions us [.poll ticket limit] = [] := rfl
    rw [readFor_eq_nil (.poll ticket limit) (fun _ h => by cases h), hs]
    simpa [operate, OperationResult.verdict?, Operation.step?] using advanced_poll h ticket limit
  | _ => exact ha.elim

theorem sessions_cons (us : List AccessUnit) (op : Operation) (ops : List Operation) :
    sessions us (op :: ops) =
      sessions us [op] ++ sessions (op.step?.elim us (Step.onto us)) ops := by
  unfold sessions
  cases hs : op.step? with
  | none => simp [hs, endedStreams]
  | some s => simp [hs, endedStreams]

theorem received_cons (queue : Nat) (op : Operation) (ops : List Operation)
    (result : OperationResult) (results : List OperationResult) :
    received queue (op :: ops) (result :: results) =
      (readOn? queue (op, result)).toList ++ received queue ops results := by
  unfold received
  rw [List.zip_cons_cons, List.filterMap_cons]
  cases readOn? queue (op, result) <;> rfl

/-- What lies ahead of a run, with the deliveries of the streams that it ends, is what the run
reads and what lies ahead of its last state. -/
theorem advanced_operateAll (hne : channels ≠ []) {ops : List Operation}
    (h : d.Flowing routes channels us due verdicts) (ho : d.Orderly ops) :
    let r := (d.operateAll ops).value
    Advanced routes channels ((ops.filterMap Operation.step?).foldl Step.onto us)
      (fun c => d.board.queuedFor c ++
        (due c ++ (sessions us ops).flatMap (deliveries channels c)))
      (verdicts ++ (sessions us ops).map (verdict channels))
      (fun c => (routes.lookup c).elim [] fun queue => received queue ops r.1)
      (r.1.filterMap OperationResult.verdict?) r.2 := by
  induction ops generalizing d us due verdicts with
  | nil =>
    refine ⟨due, verdicts, h, fun c _ => ?_, List.append_nil verdicts⟩
    have hnone : (routes.lookup c).elim [] (fun queue => received queue [] []) = [] := by
      cases routes.lookup c <;> rfl
    show d.board.queuedFor c ++ (due c ++ []) =
      (routes.lookup c).elim [] (fun queue => received queue [] []) ++ _
    rw [hnone, List.append_nil]
    rfl
  | cons op ops ih =>
    let next := (d.operate op).value
    let rest := (next.2.operateAll ops).value
    have hall := (advanced_operate h hne ho.1).trans fun due v hf => ih hf ho.2
    have hr : (d.operateAll (op :: ops)).value = (next.1 :: rest.1, rest.2) := rfl
    have hus : ((op :: ops).filterMap Operation.step?).foldl Step.onto us =
        (ops.filterMap Operation.step?).foldl Step.onto (op.step?.elim us (Step.onto us)) := by
      cases hs : op.step? with
      | none => simp [hs]
      | some s => simp [hs]
    have hread : (fun c => (routes.lookup c).elim [] fun queue =>
        received queue (op :: ops) (next.1 :: rest.1)) = fun c => readFor routes op next.1 c ++
          (routes.lookup c).elim [] fun queue => received queue ops rest.1 := by
      funext c
      unfold readFor
      cases routes.lookup c with
      | none => rfl
      | some queue => exact received_cons queue op ops next.1 rest.1
    have htold : (next.1 :: rest.1).filterMap OperationResult.verdict? =
        next.1.verdict?.toList ++ rest.1.filterMap OperationResult.verdict? := by
      rw [List.filterMap_cons]
      cases next.1.verdict? <;> rfl
    rw [hr, sessions_cons]
    simp only [hus, hread, htold, List.flatMap_append, List.map_append]
    simpa only [List.append_assoc] using hall

end Dispatcher

end StreamFanout
