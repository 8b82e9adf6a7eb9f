import StreamFanout.Delivery.Switchboard
import StreamFanout.Proofs.Distribution.Course

/-!
What a pass has to do with one channel: the units that it sends there, and whether it has still to
call on it. While a pass pushes it has all of its channels to come, since each of them is sent the
end of the stream; then they become fewer with every call.
-/
namespace StreamFanout

def SinkCall.unitOn? (c : Channel) : SinkCall → Option AccessUnit
  | .push d u => if d = c then some u else none
  | .endOfStream _ => none

def sentOn (c : Channel) (calls : List SinkCall) : List AccessUnit :=
  calls.filterMap (SinkCall.unitOn? c)

theorem sentOn_append (c : Channel) (xs ys : List SinkCall) :
    sentOn c (xs ++ ys) = sentOn c xs ++ sentOn c ys :=
  List.filterMap_append

theorem sentOn_endOfStream (c : Channel) (channels : List Channel) :
    sentOn c (channels.map .endOfStream) = [] := by
  simp [sentOn, SinkCall.unitOn?]

theorem sentOn_pushes (c : Channel) (slots : List Slot) :
    sentOn c (slots.map Slot.call) = (slots.filter (·.channel = c)).map Slot.unit := by
  induction slots with
  | nil => rfl
  | cons s slots ih =>
    rw [List.map_cons, sentOn, List.filterMap_cons, ← sentOn, ih]
    by_cases hc : s.channel = c
    · simp [Slot.call, SinkCall.unitOn?, hc]
    · simp [Slot.call, SinkCall.unitOn?, hc]

/-- On one channel the calls of a pass are its pushes there and then, if the channel is one of its
own, the end of the stream. -/
theorem filter_calls {channels : List Channel} (hd : channels.Nodup) (slots : List Slot)
    (c : Channel) :
    (slots.map Slot.call ++ channels.map SinkCall.endOfStream).filter (·.channel = c) =
      ((slots.filter (·.channel = c)).map Slot.unit).map (.push c) ++
        if c ∈ channels then [.endOfStream c] else [] := by
  have hpush : (slots.map Slot.call).filter (·.channel = c) =
      ((slots.filter (·.channel = c)).map Slot.unit).map (.push c) := by
    rw [List.filter_map, List.map_map]
    refine List.map_congr_left fun s hs => ?_
    have hc : s.channel = c := of_decide_eq_true (List.mem_filter.mp hs).2
    rw [Slot.call, hc]
    rfl
  have hend : (channels.map SinkCall.endOfStream).filter (·.channel = c) =
      if c ∈ channels then [.endOfStream c] else [] := by
    have hf : channels.filter (fun d => (SinkCall.endOfStream d).channel = c) =
        List.replicate (channels.count c) c := List.filter_eq c
    rw [List.filter_map]
    show (channels.filter fun d => (SinkCall.endOfStream d).channel = c).map _ = _
    rw [hf, hd.count]
    split <;> rfl
  rw [List.filter_append, hpush, hend]

theorem mem_channels_of_mem_schedule {bs : List Block} {gops : List Gop} {s : Slot}
    (h : s ∈ schedule bs gops) : s.channel ∈ bs.map Block.channel := by
  obtain ⟨r, -, hs⟩ := List.mem_flatMap.mp h
  obtain ⟨b, hb, hs⟩ := List.mem_flatMap.mp hs
  rw [Block.channel_of_mem_turn hs]
  exact List.mem_map_of_mem hb

namespace Pass

def unitOn? (c : Channel) (p : Pass) : Option AccessUnit :=
  p.call?.bind (SinkCall.unitOn? c)

/-- The channels that a pass may call on after the present stop. -/
def toCome : Pass → List Channel
  | looking _ served lane _ upcoming _ | pushing _ served lane _ _ upcoming _ =>
    (served ++ lane :: upcoming).map Lane.channel
  | ending _ _ _ rest => rest
  | booking .. | discarding _ => []

/-- The channels of the present call and of those to come. -/
def scope : Pass → List Channel
  | looking _ served lane _ upcoming _ | pushing _ served lane _ _ upcoming _ =>
    (served ++ lane :: upcoming).map Lane.channel
  | ending _ _ c rest => c :: rest
  | booking .. | discarding _ => []

theorem channel_call_mem_scope {p : Pass} {call : SinkCall} (h : p.call? = some call) :
    call.channel ∈ p.scope := by
  cases p with
  | pushing plan served lane unit rest upcoming round =>
    cases h
    exact List.mem_map_of_mem (List.mem_append_right _ List.mem_cons_self)
  | ending plan lanes c rest =>
    cases h
    exact List.mem_cons_self
  | _ => cases h

theorem mem_scope {p : Pass} {c : Channel} (h : c ∈ p.scope) :
    p.call?.map SinkCall.channel = some c ∨ c ∈ p.toCome := by
  cases p with
  | ending plan lanes d rest =>
    exact (List.mem_cons.mp h).imp_left fun he => congrArg some he.symm
  | _ => exact .inr h

theorem mem_scope_of_toCome {p : Pass} {c : Channel} (h : c ∈ p.toCome) : c ∈ p.scope := by
  cases p with
  | ending plan lanes d rest => exact List.mem_cons_of_mem d h
  | _ => exact h

theorem nodup_toCome {p : Pass} (h : p.scope.Nodup) : p.toCome.Nodup := by
  cases p with
  | ending plan lanes c rest => exact (List.nodup_cons.mp h).2
  | _ => exact h

end Pass

def Progress.scope : Progress → List Channel
  | waiting p => p.scope
  | finished .. | discarded _ => []

namespace Pass

theorem scope_conclude (plan : Partition) (lanes : List Lane) :
    (conclude plan lanes).scope = lanes.map Lane.channel := by
  unfold conclude
  split
  · next h => exact h.symm
  · next h => exact h.symm

theorem scope_advance (plan : Partition) (left round : Nat) (served upcoming : List Lane) :
    (advance plan left round served upcoming).scope = (served ++ upcoming).map Lane.channel := by
  rcases (advances_advance plan left round served upcoming).lanes_eq with
    ⟨before, lane, gop, queue, after, r, hl, -, ha⟩ | ha
  · rw [ha, hl]
    simp [scope]
  · rw [ha, scope_conclude]

theorem scope_start (plan : Partition) (lanes : List Lane) :
    (start plan lanes).scope = lanes.map Lane.channel := by
  rcases start_eq plan lanes with h | h
  · rw [h, scope_conclude]
  · rw [h, scope_advance, List.nil_append]

/-- A call that is answered leaves the scope, and nothing else does. -/
theorem scope_resume (live : Channel → Bool) (silent : Bool) (p : Pass) (answer : Answer) :
    (resume live silent answer p).value.scope = p.toCome := by
  have behind (plan : Partition) (round : Nat) (served : List Lane) {l lane : Lane}
      (upcoming : List Lane) (hl : l.channel = lane.channel) :
      (next plan round (served ++ [l]) upcoming).scope =
        (served ++ lane :: upcoming).map Lane.channel := by
    rw [next, scope_advance]
    simp [hl]
  cases p with
  | looking plan served lane gop upcoming round =>
    rw [resume]
    split
    · rfl
    · exact behind plan round served upcoming rfl
  | pushing plan served lane unit rest upcoming round =>
    cases answer with
    | accepted =>
      cases rest with
      | nil => exact behind plan round served upcoming rfl
      | cons unit rest => simp [resume, Progress.scope, scope, toCome, Lane.accept]
    | refused reason => exact behind plan round served upcoming rfl
  | ending plan lanes c rest => cases rest <;> rfl
  | booking plan lanes => rfl
  | discarding gops => rfl

end Pass

end StreamFanout
