import StreamFanout.Proofs.Stream.KeyframeRuns

/-!
Grouping at any moment of its use. Whatever is taken in and handed out, the groups that are
buffered are the keyframe runs of the units accepted since groups were last handed out, and there
is only one such list.
-/
namespace StreamFanout.Grouping

inductive Call where
  | ingest (unit : AccessUnit)
  | finalize
  deriving DecidableEq

inductive Result where
  | ingested (result : Except FanoutError Unit)
  | finalized (gops : List Gop)

def perform (g : Grouping) : Call → Logged (Result × Grouping)
  | .ingest u => do
    let (result, g) ← g.ingest u
    pure (.ingested result, g)
  | .finalize => do
    let gops ← g.finalize
    pure (.finalized gops, {})

def after (g : Grouping) : List Call → Grouping
  | [] => g
  | call :: calls => (g.perform call).value.2.after calls

/-- The units accepted since groups were last handed out, when they were `us` before the call. -/
def Call.onto (us : List AccessUnit) : Call → List AccessUnit
  | ingest u => us ++ accepted [u]
  | finalize => []

/-- The units accepted since groups were last handed out. -/
def sinceFinalize (calls : List Call) : List AccessUnit :=
  calls.foldl Call.onto []

theorem Groups.perform {g : Grouping} {us : List AccessUnit}
    (h : g.Groups (us.map AccessUnit.marked)) (call : Call) :
    (g.perform call).value.2.Groups ((call.onto us).map AccessUnit.marked) := by
  cases call with
  | ingest u =>
    have hu := h.ingest u
    rwa [← List.map_append] at hu
  | finalize => exact groups_empty

theorem groups_after (calls : List Call) :
    (({} : Grouping).after calls).Groups ((sinceFinalize calls).map AccessUnit.marked) := by
  have run (g : Grouping) (us : List AccessUnit) (h : g.Groups (us.map AccessUnit.marked)) :
      (g.after calls).Groups ((calls.foldl Call.onto us).map AccessUnit.marked) := by
    induction calls generalizing g us with
    | nil => exact h
    | cons call calls ih => exact ih _ _ (h.perform call)
  exact run {} [] groups_empty

theorem Groups.closed_size {g : Grouping} {us : List AccessUnit} (h : g.Groups us) :
    g.closed.size = g.groups.length - 1 := by
  cases hc : g.current with
  | none => simp [groups, hc, h.closed_eq_empty hc]
  | some gop => simp [groups, hc]

theorem Groups.openLength_eq {g : Grouping} {us : List AccessUnit} (h : g.Groups us) :
    g.openLength = (g.groups.getLast?.map Gop.length).getD 0 := by
  cases hc : g.current with
  | none => simp [openLength, groups, hc, h.closed_eq_empty hc]
  | some gop => simp [openLength, groups, hc]

theorem ingest_eq_pure (g : Grouping) {u : AccessUnit} (hu : u.size = 0) :
    g.ingest u = pure (.error (.invalidUnit "empty payload"), g) := by
  simp [ingest, AccessUnit.validate, hu]

/-- After any use the buffered groups are the keyframe runs of the accepted units, each keyframe
being marked as a discontinuity, and no other list is. All groups but the last are closed. Handing
out closes that one too, gives all of them and leaves nothing, so the next time there is nothing to
hand out. A refused unit, keyframe or not, changes nothing and is not logged. -/
theorem keyframe_decomposition (calls : List Call) :
    let g := ({} : Grouping).after calls
    let s := (sinceFinalize calls).map AccessUnit.marked
    let groups := (g.closed.toList ++ g.current.toList).map Gop.units
    (∀ runs, KeyframeRuns s runs ↔ runs = groups) ∧
      g.closed.size = groups.length - 1 ∧
      g.openLength = (groups.getLast?.map List.length).getD 0 ∧
      (g.perform .finalize).value = (.finalized (g.closed.toList ++ g.current.toList), {}) ∧
      g.close.value.closed.toList = g.closed.toList ++ g.current.toList ∧
      g.close.value.current = none ∧
      (({} : Grouping).perform .finalize).value = (.finalized [], {}) ∧
      (∀ u, u.size = 0 → g.perform (.ingest u) =
        pure (.ingested (.error (.invalidUnit "empty payload")), g)) ∧
      (∀ u, u.size ≠ 0 → (g.perform (.ingest u)).value.1 = .ingested (.ok ())) ∧
      ∀ u, AccessUnit.marked u = if u.isKeyframe then { u with discont := true } else u := by
  intro g s groups
  have h : g.Groups s := groups_after calls
  have hgroups : groups = g.groups.map Gop.units := rfl
  have hclose : g.close.value.closed.toList = g.groups := by
    rw [← g.groups_close, Grouping.groups, current_close, Option.toList_none, List.append_nil]
  refine ⟨fun runs => ⟨fun hr => ?_, fun hr => hr ▸ h.runs⟩, ?_, ?_, ?_, hclose, g.current_close,
    rfl, ?_, ?_, ?_⟩
  · rw [hr.eq_keyframeRuns, hgroups, h.runs.eq_keyframeRuns]
  · rw [hgroups, List.length_map]
    exact h.closed_size
  · rw [hgroups, List.getLast?_map, h.openLength_eq]
    cases g.groups.getLast? <;> simp
  · simp [perform, finalize_value, Grouping.groups]
  · intro u hu
    rw [perform, g.ingest_eq_pure hu]
    rfl
  · intro u hu
    simp [perform, ingest_accepted hu]
  · rintro ⟨pts, payload, isKeyframe, discont⟩
    cases isKeyframe <;> simp [AccessUnit.marked]

end StreamFanout.Grouping
