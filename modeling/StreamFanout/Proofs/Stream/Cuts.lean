import StreamFanout.Proofs.Stream.Decomposition

/-!
Groups handed out in the middle of a stream. What is handed out before and after the cut are the
groups of the whole stream, except that a group that goes on behind the cut comes in two pieces.
-/
namespace StreamFanout

theorem Gop.units_injective : Function.Injective Gop.units := by
  rintro ⟨first, rest⟩ ⟨first', rest'⟩ h
  simp only [units, List.cons.injEq] at h
  obtain ⟨rfl, hrest⟩ := h
  rw [Array.toList_inj.mp hrest]

namespace KeyframeRuns

variable {us vs : List AccessUnit} {runs runs' : List (List AccessUnit)} {r r' : List AccessUnit}

theorem eq_nil_iff (h : KeyframeRuns us runs) : runs = [] ↔ us = [] := by
  constructor
  · rintro rfl
    exact h.flatten_eq.symm
  · rintro rfl
    cases runs with
    | nil => rfl
    | cons r runs => exact absurd (List.append_eq_nil_iff.mp h.flatten_eq).1 (h.ne_nil r (by simp))

theorem head?_eq (h : KeyframeRuns us (r :: runs)) : us.head? = r.head? := by
  obtain ⟨u, r, rfl⟩ := List.exists_cons_of_ne_nil (h.ne_nil r (by simp))
  rw [← h.flatten_eq]
  rfl

/-- In front of a keyframe, and at either end of the stream, a cut falls between two runs. -/
theorem join (h : KeyframeRuns us runs) (h' : KeyframeRuns vs runs')
    (hcut : us = [] ∨ vs = [] ∨ ∃ v, vs.head? = some v ∧ v.isKeyframe = true) :
    KeyframeRuns (us ++ vs) (runs ++ runs') := by
  constructor
  · simp [h.flatten_eq, h'.flatten_eq]
  · intro s hs
    rcases List.mem_append.mp hs with hs | hs
    · exact h.ne_nil s hs
    · exact h'.ne_nil s hs
  · intro s hs v hv
    cases runs with
    | nil => exact h'.head_isKeyframe s hs v hv
    | cons r runs =>
      rcases List.mem_append.mp hs with hs | hs
      · exact h.head_isKeyframe s hs v hv
      · cases runs' with
        | nil => simp at hs
        | cons r' runs' =>
          have hus : us ≠ [] := by simp [← h.eq_nil_iff]
          have hvs : vs ≠ [] := by simp [← h'.eq_nil_iff]
          rcases List.mem_cons.mp hs with rfl | hs
          · -- The run at the cut: its first unit is the one behind the cut.
            obtain ⟨w, hw, hk⟩ := (hcut.resolve_left hus).resolve_left hvs
            have heq : some w = some v := by rw [← hw, h'.head?_eq, hv]
            rwa [← Option.some.inj heq]
          · exact h'.head_isKeyframe s hs v hv
  · intro s hs
    rcases List.mem_append.mp hs with hs | hs
    · exact h.tail_not_isKeyframe s hs
    · exact h'.tail_not_isKeyframe s hs

/-- A cut at any other place falls into a run, and either side has a piece of it. -/
theorem merge (h : KeyframeRuns us (runs ++ [r])) (h' : KeyframeRuns vs (r' :: runs'))
    (hcut : ∀ v, vs.head? = some v → v.isKeyframe = false) :
    KeyframeRuns (us ++ vs) (runs ++ (r ++ r') :: runs') := by
  have hr : r ≠ [] := h.ne_nil r (by simp)
  have hr' : r' ≠ [] := h'.ne_nil r' (by simp)
  constructor
  · simp [← h.flatten_eq, ← h'.flatten_eq]
  · intro s hs
    simp only [List.mem_append, List.mem_cons] at hs
    rcases hs with hs | rfl | hs
    · exact h.ne_nil s (by simp [hs])
    · simp [hr]
    · exact h'.ne_nil s (by simp [hs])
  · intro s hs v hv
    cases runs with
    | nil => exact h'.head_isKeyframe s hs v hv
    | cons r₀ runs =>
      have hs' : s ∈ runs ∨ s = r ++ r' ∨ s ∈ runs' := by simpa using hs
      rcases hs' with hs | rfl | hs
      · exact h.head_isKeyframe s (by simp [hs]) v hv
      · rw [List.head?_append_of_ne_nil r hr] at hv
        exact h.head_isKeyframe r (by simp) v hv
      · exact h'.head_isKeyframe s hs v hv
  · intro s hs v hv
    simp only [List.mem_append, List.mem_cons] at hs
    rcases hs with hs | rfl | hs
    · exact h.tail_not_isKeyframe s (by simp [hs]) v hv
    · rw [List.tail_append_of_ne_nil hr] at hv
      rcases List.mem_append.mp hv with hv | hv
      · exact h.tail_not_isKeyframe r (by simp) v hv
      · obtain ⟨w, r', rfl⟩ := List.exists_cons_of_ne_nil hr'
        rcases List.mem_cons.mp hv with rfl | hv
        · exact hcut v h'.head?_eq
        · exact h'.tail_not_isKeyframe (w :: r') (by simp) v hv
    · exact h'.tail_not_isKeyframe s (by simp [hs]) v hv

end KeyframeRuns

namespace Grouping

/-- The groups that are handed out at the end of some use of an empty grouping. -/
def handedOut (calls : List Call) : List Gop :=
  (({} : Grouping).after calls).finalize.value

theorem sinceFinalize_append_ingest (calls : List Call) (us : List AccessUnit) :
    sinceFinalize (calls ++ us.map .ingest) = sinceFinalize calls ++ accepted us := by
  induction us generalizing calls with
  | nil => simp [accepted]
  | cons u us ih =>
    have hstep := ih (calls ++ [.ingest u])
    simp only [List.append_assoc, List.singleton_append] at hstep
    rw [List.map_cons, hstep, ← List.singleton_append (l := us), accepted_append,
      ← List.append_assoc]
    simp [sinceFinalize, Call.onto]

/-- The units taken in since groups were last handed out decide what is handed out next. -/
theorem handedOut_runs (calls : List Call) (us : List AccessUnit)
    (hcalls : sinceFinalize calls = []) :
    KeyframeRuns ((accepted us).map AccessUnit.marked)
      ((handedOut (calls ++ us.map .ingest)).map Gop.units) := by
  have h := (groups_after (calls ++ us.map .ingest)).runs
  rwa [sinceFinalize_append_ingest, hcalls, List.nil_append, ← finalize_value] at h

/-- Handing out the groups in the middle of a stream only cuts there. Unless a group goes on
behind the cut, the groups before and after it are those of the whole stream; otherwise the last
group before the cut and the first one after it make up one group of the whole stream. -/
theorem finalize_only_cuts (a b : List AccessUnit) :
    let A := handedOut (a.map .ingest)
    let B := handedOut (a.map .ingest ++ .finalize :: b.map .ingest)
    let C := handedOut ((a ++ b).map .ingest)
    let between := accepted a = [] ∨ accepted b = [] ∨
      ∃ u, (accepted b).head? = some u ∧ u.isKeyframe = true
    (between → C = A ++ B) ∧
      (¬ between → ∃ A' l f B' m, A = A' ++ [l] ∧ B = f :: B' ∧ C = A' ++ m :: B' ∧
        m.units = l.units ++ f.units) := by
  intro A B C between
  have hA : KeyframeRuns ((accepted a).map AccessUnit.marked) (A.map Gop.units) :=
    handedOut_runs [] a rfl
  have hB : KeyframeRuns ((accepted b).map AccessUnit.marked) (B.map Gop.units) := by
    have h := handedOut_runs (a.map .ingest ++ [.finalize]) b (by simp [sinceFinalize, Call.onto])
    rwa [List.append_assoc, List.singleton_append] at h
  have hC : KeyframeRuns ((accepted a).map AccessUnit.marked ++ (accepted b).map AccessUnit.marked)
      (C.map Gop.units) := by
    have h := handedOut_runs [] (a ++ b) rfl
    rwa [accepted_append, List.map_append] at h
  have hunique : ∀ runs, KeyframeRuns ((accepted a).map AccessUnit.marked ++
      (accepted b).map AccessUnit.marked) runs → C.map Gop.units = runs := fun runs h =>
    hC.eq_keyframeRuns.trans h.eq_keyframeRuns.symm
  constructor
  · intro hcut
    apply List.map_injective_iff.mpr Gop.units_injective
    rw [List.map_append]
    apply hunique
    apply hA.join hB
    simpa [between, AccessUnit.marked] using hcut
  · intro hcut
    simp only [between, not_or, not_exists, not_and, Bool.not_eq_true] at hcut
    obtain ⟨ha, hb, hfirst⟩ := hcut
    have hAne : A ≠ [] := by simpa [ha] using hA.eq_nil_iff.not
    have hBne : B ≠ [] := by simpa [hb] using hB.eq_nil_iff.not
    obtain ⟨A', l, hAl⟩ := List.eq_nil_or_concat A |>.resolve_left hAne
    obtain ⟨f, B', hBf⟩ := List.exists_cons_of_ne_nil hBne
    rw [hAl, List.concat_eq_append, List.map_append] at hA
    rw [hBf] at hB
    have hmerge := hunique _ (hA.merge hB (by simpa [AccessUnit.marked] using hfirst))
    obtain ⟨C₁, C₂, hCeq, hC₁, hC₂⟩ := List.map_eq_append_iff.mp hmerge
    obtain ⟨m, C₃, rfl, hm, hC₃⟩ := List.map_eq_cons_iff.mp hC₂
    have hinj := List.map_injective_iff.mpr Gop.units_injective
    rw [hinj hC₁, hinj hC₃] at hCeq
    exact ⟨A', l, f, B', m, by simpa using hAl, hBf, hCeq, hm⟩

end Grouping

end StreamFanout
