import Mathlib.Data.List.Flatten
import Mathlib.Data.List.SplitBy
import StreamFanout.Stream.Grouping

/-!
The groups of a stream as its runs between keyframes. Closing the group being filled changes
nothing in the view of a grouping, so taking a unit is seen as adding it to the last group or,
for a keyframe, as starting one more.
-/
namespace StreamFanout

namespace Gop

def flatten (gs : List Gop) : List AccessUnit :=
  gs.flatMap units

@[simp] theorem flatten_nil : flatten [] = [] := rfl

@[simp] theorem flatten_cons (g : Gop) (gs : List Gop) :
    flatten (g :: gs) = g.units ++ flatten gs :=
  List.flatMap_cons

theorem flatten_ne_nil {gs : List Gop} (h : gs ≠ []) : flatten gs ≠ [] := by
  obtain ⟨g, gs, rfl⟩ := List.exists_cons_of_ne_nil h
  simp [units]

theorem flatten_sublist {gs hs : List Gop} (h : gs.Sublist hs) :
    (flatten gs).Sublist (flatten hs) :=
  h.flatMap units

theorem length_flatten (gs : List Gop) : (flatten gs).length = unitCount gs := by
  induction gs with
  | nil => rfl
  | cons g gs ih => rw [flatten_cons, List.length_append, length_units, ih, unitCount_cons]

theorem unitCount_append (gs hs : List Gop) :
    unitCount (gs ++ hs) = unitCount gs + unitCount hs := by
  simp [unitCount]

theorem unitCount_take_succ {gs : List Gop} {n : Nat} {g : Gop} (h : gs[n]? = some g) :
    unitCount (gs.take (n + 1)) = unitCount (gs.take n) + g.length := by
  rw [List.take_add_one, h, unitCount_append]
  simp

theorem unitCount_take_le (gs : List Gop) {m n : Nat} (h : m ≤ n) :
    unitCount (gs.take m) ≤ unitCount (gs.take n) := by
  have hsplit : gs.take n = gs.take m ++ (gs.drop m).take (n - m) := by
    rw [← List.take_add, Nat.add_sub_cancel' h]
  rw [hsplit, unitCount_append]
  exact Nat.le_add_right _ _

theorem unitCount_take_lt (gs : List Gop) {m n : Nat} (hm : m < gs.length) (h : m < n) :
    unitCount (gs.take m) < unitCount (gs.take n) := by
  have hpos := gs[m].length_pos
  calc unitCount (gs.take m) < unitCount (gs.take m) + gs[m].length := by omega
    _ = unitCount (gs.take (m + 1)) := (unitCount_take_succ (List.getElem?_eq_getElem hm)).symm
    _ ≤ unitCount (gs.take n) := unitCount_take_le gs h

end Gop

def accepted (us : List AccessUnit) : List AccessUnit :=
  us.filter (0 < ·.size)

@[simp] theorem accepted_append (us vs : List AccessUnit) :
    accepted (us ++ vs) = accepted us ++ accepted vs :=
  List.filter_append _ _

/-- The runs of `us` that start at its keyframes; only the first may start without one. -/
structure KeyframeRuns (us : List AccessUnit) (runs : List (List AccessUnit)) : Prop where
  flatten_eq : runs.flatten = us
  ne_nil : ∀ r ∈ runs, r ≠ []
  head_isKeyframe : ∀ r ∈ runs.tail, ∀ u ∈ r.head?, u.isKeyframe = true
  tail_not_isKeyframe : ∀ r ∈ runs, ∀ u ∈ r.tail, u.isKeyframe = false

namespace KeyframeRuns

variable {us : List AccessUnit} {runs : List (List AccessUnit)} {u : AccessUnit}

theorem nil : KeyframeRuns [] [] := by
  constructor <;> simp

/-- A keyframe, or the first unit of all, starts a run. -/
theorem start (h : KeyframeRuns us runs) (hu : u.isKeyframe = true ∨ runs = []) :
    KeyframeRuns (us ++ [u]) (runs ++ [[u]]) := by
  constructor
  · simp [h.flatten_eq]
  · intro r hr
    rcases List.mem_append.mp hr with hr | hr
    · exact h.ne_nil r hr
    · rw [List.mem_singleton.mp hr]
      exact List.cons_ne_nil _ _
  · intro r hr v hv
    rcases hu with hu | rfl
    · have hr' : r ∈ runs.tail ∨ r = [u] := by
        cases runs with
        | nil => simp at hr
        | cons s runs => simpa using hr
      rcases hr' with hr' | rfl
      · exact h.head_isKeyframe r hr' v hv
      · rw [← Option.some.inj hv]
        exact hu
    · simp at hr
  · intro r hr v hv
    rcases List.mem_append.mp hr with hr | hr
    · exact h.tail_not_isKeyframe r hr v hv
    · rw [List.mem_singleton.mp hr] at hv
      simp at hv

/-- Any other unit goes on with the last run. -/
theorem extend {r : List AccessUnit} (h : KeyframeRuns us (runs ++ [r]))
    (hu : u.isKeyframe = false) : KeyframeRuns (us ++ [u]) (runs ++ [r ++ [u]]) := by
  have hr : r ≠ [] := h.ne_nil r (by simp)
  constructor
  · rw [← h.flatten_eq]
    simp
  · intro s hs
    rcases List.mem_append.mp hs with hs | hs
    · exact h.ne_nil s (List.mem_append_left _ hs)
    · rw [List.mem_singleton.mp hs]
      simp
  · intro s hs v hv
    cases runs with
    | nil => simp at hs
    | cons r₀ runs =>
      rcases List.mem_append.mp hs with hs | hs
      · exact h.head_isKeyframe s (List.mem_append_left _ hs) v hv
      · obtain ⟨a, as, rfl⟩ := List.exists_cons_of_ne_nil hr
        rw [List.mem_singleton.mp hs] at hv
        exact h.head_isKeyframe (a :: as) (by simp) v hv
  · intro s hs v hv
    rcases List.mem_append.mp hs with hs | hs
    · exact h.tail_not_isKeyframe s (List.mem_append_left _ hs) v hv
    · rw [List.mem_singleton.mp hs, List.tail_append_of_ne_nil hr] at hv
      rcases List.mem_append.mp hv with hv | hv
      · exact h.tail_not_isKeyframe r (by simp) v hv
      · rw [List.mem_singleton.mp hv]
        exact hu

end KeyframeRuns

/-- A stream cut in front of each of its keyframes. -/
def keyframeRuns (us : List AccessUnit) : List (List AccessUnit) :=
  us.splitBy fun _ v => !v.isKeyframe

private theorem isChain_of_tail {α : Type} {R : α → α → Prop} {xs : List α}
    (h : ∀ a ∈ xs, ∀ b ∈ xs.tail, R a b) : xs.IsChain R := by
  induction xs with
  | nil => exact .nil
  | cons a xs ih =>
    cases xs with
    | nil => exact .singleton a
    | cons b xs =>
      refine .cons_cons (h a List.mem_cons_self b List.mem_cons_self) (ih fun c hc d hd => ?_)
      exact h c (List.mem_cons_of_mem a hc) d (List.mem_cons_of_mem b hd)

theorem KeyframeRuns.eq_keyframeRuns {us : List AccessUnit} {runs : List (List AccessUnit)}
    (h : KeyframeRuns us runs) : runs = keyframeRuns us := by
  rw [keyframeRuns, ← h.flatten_eq]
  refine (List.splitBy_flatten (fun hn => h.ne_nil [] hn rfl) (fun r hr => ?_) ?_).symm
  · refine isChain_of_tail fun _ _ v hv => ?_
    rw [h.tail_not_isKeyframe r hr v hv]
    rfl
  · refine isChain_of_tail fun r hr s hs => ?_
    have hs' := h.ne_nil s (List.mem_of_mem_tail hs)
    refine ⟨h.ne_nil r hr, hs', ?_⟩
    rw [h.head_isKeyframe s hs (s.head hs') (List.head_mem_head? hs')]
    rfl

namespace Grouping

def units (g : Grouping) : List AccessUnit :=
  Gop.flatten g.groups

theorem unitCount_groups (g : Grouping) :
    Gop.unitCount g.groups = g.openLength + Gop.unitCount g.closed.toList := by
  rw [groups, Gop.unitCount_append, Nat.add_comm, openLength]
  cases g.current with
  | none => rfl
  | some gop => simp

theorem groups_close (g : Grouping) : g.close.value.groups = g.groups := by
  rw [close]
  cases hc : g.current with
  | none => rfl
  | some gop => simp [groups, hc]

theorem current_close (g : Grouping) : g.close.value.current = none := by
  rw [close]
  cases hc : g.current with
  | none => exact hc
  | some gop => rfl

theorem finalize_value (g : Grouping) : g.finalize.value = g.groups := by
  have h := g.groups_close
  rw [groups, current_close, Option.toList_none, List.append_nil] at h
  simpa [finalize] using h

theorem ingest_refused {g : Grouping} {u : AccessUnit} (h : u.size = 0) :
    (g.ingest u).value = (.error (.invalidUnit "empty payload"), g) := by
  simp [ingest, AccessUnit.validate, h]

theorem ingest_accepted {g : Grouping} {u : AccessUnit} (h : u.size ≠ 0) :
    (g.ingest u).value =
      (.ok (), (if u.isKeyframe then g.close.value else g).append u.marked) := by
  by_cases hk : u.isKeyframe <;> simp [ingest, AccessUnit.validate, h, hk]

/-- The groups are the keyframe runs of `us`, and the last of them is always open. -/
structure Groups (g : Grouping) (us : List AccessUnit) : Prop where
  runs : KeyframeRuns us (g.groups.map Gop.units)
  closed_eq_empty : g.current = none → g.closed = #[]

theorem groups_empty : Groups {} [] :=
  ⟨KeyframeRuns.nil, fun _ => rfl⟩

theorem Groups.units_eq {g : Grouping} {us : List AccessUnit} (h : g.Groups us) :
    g.units = us := by
  rw [← h.runs.flatten_eq, units, Gop.flatten, List.flatMap_def]

theorem Groups.groups_eq_nil_iff {g : Grouping} {us : List AccessUnit} (h : g.Groups us) :
    g.groups = [] ↔ us = [] := by
  rw [← h.units_eq, units]
  exact ⟨fun hg => hg ▸ rfl, fun hu => Classical.byContradiction fun hg => Gop.flatten_ne_nil hg hu⟩

theorem Groups.close_append {g : Grouping} {us : List AccessUnit} {u : AccessUnit}
    (h : g.Groups us) (hu : u.isKeyframe = true) : (g.close.value.append u).Groups (us ++ [u]) := by
  have hg : (g.close.value.append u).groups = g.groups ++ [⟨u, #[]⟩] := by
    have hc := g.groups_close
    rw [groups, current_close, Option.toList_none, List.append_nil] at hc
    simp [append, current_close, groups, hc]
  refine ⟨?_, fun hn => ?_⟩
  · rw [hg, List.map_append]
    exact h.runs.start (.inl hu)
  · simp [append, current_close] at hn

theorem Groups.append {g : Grouping} {us : List AccessUnit} {u : AccessUnit}
    (h : g.Groups us) (hu : u.isKeyframe = false) : (g.append u).Groups (us ++ [u]) := by
  cases hc : g.current with
  | none =>
    have hn : g.groups = [] := by simp [groups, hc, h.closed_eq_empty hc]
    refine ⟨?_, fun he => ?_⟩
    · have hr := h.runs.start (u := u) (.inr (by rw [hn]; rfl))
      simpa [hn, groups, Grouping.append, hc, h.closed_eq_empty hc] using hr
    · simp [Grouping.append, hc] at he
  | some gop =>
    refine ⟨?_, fun he => ?_⟩
    · have hr := h.runs
      rw [groups, hc, Option.toList_some, List.map_append] at hr
      simpa [groups, Grouping.append, hc] using hr.extend hu
    · simp [Grouping.append, hc] at he

/-- Taking a unit goes on with the keyframe runs, and a refused one leaves them as they are. -/
theorem Groups.ingest {g : Grouping} {us : List AccessUnit} (h : g.Groups us) (u : AccessUnit) :
    (g.ingest u).value.2.Groups (us ++ (accepted [u]).map AccessUnit.marked) := by
  by_cases hu : u.size = 0
  · rw [ingest_refused hu]
    simpa [accepted, hu] using h
  · have ha : accepted [u] = [u] := by simp [accepted, Nat.pos_iff_ne_zero, hu]
    rw [ingest_accepted hu, ha]
    by_cases hk : u.isKeyframe
    · rw [if_pos hk]
      exact h.close_append (u := u.marked) hk
    · rw [if_neg hk]
      exact h.append (u := u.marked) (Bool.eq_false_iff.mpr hk)

end Grouping

end StreamFanout
