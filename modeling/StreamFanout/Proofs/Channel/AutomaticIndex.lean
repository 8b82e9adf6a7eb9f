import Mathlib.Data.List.Basic
import StreamFanout.Proofs.Channel.History

/-!
The index that an automatic registration gets. The watermark is one past the greatest index that
was ever registered, or that index itself at the top of the index space, so it never falls and no
index below it is handed out. Only the last index can be live at the watermark.
-/
namespace StreamFanout

namespace Channel

def last : Channel :=
  ⟨4294967295⟩

theorem eq_last_iff (c : Channel) : c = last ↔ c.index.toNat + 1 = UInt32.size := by
  obtain ⟨i⟩ := c
  rw [last, mk.injEq, ← UInt32.toNat_inj]
  exact (Nat.succ_inj (b := 4294967295)).symm

end Channel

namespace Roster

/-- The channels that joined, in order and as often as they did. -/
def joined (changes : List Change) : List Channel :=
  changes.filterMap Change.joined?

@[simp] theorem joined_join (done : List Change) (c : Channel) :
    joined (done ++ [.joined c]) = joined done ++ [c] := by
  simp [joined]

@[simp] theorem joined_leave (done : List Change) (c : Channel) :
    joined (done ++ [.left c]) = joined done := by
  simp [joined, List.filterMap]

/-- The index after the greatest one in use so far, or that one where no other follows. -/
def nextIndex (used : List Channel) : Nat :=
  match (used.map (·.index.toNat)).max? with
  | none => 0
  | some greatest => min (greatest + 1) (UInt32.size - 1)

/-- The channels of index `n`, `n + 1`, … up to the greatest index. -/
def candidates (n : Nat) : List Channel :=
  (List.range' n (UInt32.size - n)).map fun k => ⟨UInt32.ofNat k⟩

theorem toNat_indexAfter (i : UInt32) :
    (indexAfter i).toNat = min (i.toNat + 1) (UInt32.size - 1) := by
  have hi := i.toNat_lt_size
  unfold indexAfter
  split
  · next h =>
    rw [UInt32.toNat_add, UInt32.toNat_one, Nat.mod_eq_of_lt h]
    omega
  · omega

theorem toNat_watermark_enlist (r : Roster) (c : Channel) : (r.enlist c).watermark.toNat =
    max r.watermark.toNat (min (c.index.toNat + 1) (UInt32.size - 1)) := by
  have hw := r.watermark.toNat_lt_size
  simp only [enlist]
  split
  · next h =>
    rw [toNat_indexAfter]
    rw [UInt32.le_iff_toNat_le] at h
    omega
  · next h =>
    rw [UInt32.le_iff_toNat_le] at h
    omega

theorem nextIndex_append (used : List Channel) (c : Channel) : nextIndex (used ++ [c]) =
    max (nextIndex used) (min (c.index.toNat + 1) (UInt32.size - 1)) := by
  unfold nextIndex
  rw [List.map_append, List.map_singleton]
  cases h : (used.map (·.index.toNat)).max? with
  | none =>
    rw [List.max?_eq_none_iff] at h
    simp [h]
  | some m =>
    obtain ⟨hm, hle⟩ := List.max?_eq_some_iff.mp h
    have hmax :
        (used.map (·.index.toNat) ++ [c.index.toNat]).max? = some (max m c.index.toNat) := by
      apply List.max?_eq_some_iff.mpr
      constructor
      · rcases Nat.le_total m c.index.toNat with hc | hc
        · simp [Nat.max_eq_right hc]
        · rw [Nat.max_eq_left hc]
          exact List.mem_append_left _ hm
      · intro n hn
        rcases List.mem_append.mp hn with hn | hn
        · have := hle n hn
          omega
        · have := List.mem_singleton.mp hn
          omega
    simp only [hmax]
    omega

/-- The watermark is the index after the greatest one that was ever registered. -/
theorem watermark_eq_nextIndex (calls : List Call) :
    (({} : Roster).after calls).watermark.toNat =
      nextIndex (joined (({} : Roster).changes calls)) := by
  apply run_induction (motive := fun done r => r.watermark.toNat = nextIndex (joined done)) rfl
  intro done r change r' h hmade
  cases hmade with
  | join hc =>
    rw [joined_join, nextIndex_append, toNat_watermark_enlist, h]
  | leave hc =>
    rw [joined_leave]
    exact h

theorem mem_joined_of_mem_live (calls : List Call) : ∀ c ∈ (({} : Roster).after calls).live,
    c ∈ joined (({} : Roster).changes calls) := by
  apply run_induction (motive := fun done r => ∀ c ∈ r.live, c ∈ joined done) (by simp)
  intro done r change r' h hmade d hd
  cases hmade with
  | join hc =>
    rw [joined_join]
    rcases List.mem_append.mp hd with hd | hd
    · exact List.mem_append_left _ (h d hd)
    · exact List.mem_append_right _ hd
  | leave hc =>
    rw [joined_leave]
    exact h d (List.mem_of_mem_filter hd)

/-- Every index in use is below the next one, or there is no next one. -/
theorem lt_nextIndex {used : List Channel} {c : Channel} (hc : c ∈ used) :
    c.index.toNat < nextIndex used ∨ c = .last ∧ nextIndex used = UInt32.size - 1 := by
  have hsize := c.index.toNat_lt_size
  have hlast := c.eq_last_iff
  unfold nextIndex
  cases h : (used.map (·.index.toNat)).max? with
  | none =>
    rw [List.max?_eq_none_iff, List.map_eq_nil_iff] at h
    simp [h] at hc
  | some m =>
    have hm := (List.max?_eq_some_iff.mp h).2 _ (List.mem_map_of_mem hc)
    by_cases hc : c = .last
    · have := hlast.mp hc
      exact .inr ⟨hc, by simp only; omega⟩
    · have := mt hlast.mpr hc
      left
      simp only
      omega

/-- The search for a free index runs through the indices from its start to the greatest one, as
natural numbers. -/
theorem firstFree?_eq_find? (taken : List UInt32) (i : UInt32) :
    firstFree? taken i = (candidates i.toNat).find? (·.index ∉ taken) := by
  fun_induction firstFree? taken i with
  | case1 i hi hlt ih =>
    have hsucc : (i + 1).toNat = i.toNat + 1 := by
      rw [UInt32.toNat_add, UInt32.toNat_one, Nat.mod_eq_of_lt hlt]
    have hstep : UInt32.size - i.toNat = UInt32.size - (i.toNat + 1) + 1 := by omega
    rw [ih, hsucc, candidates, candidates, hstep, List.range'_succ, List.map_cons]
    simp [hi]
  | case2 i hi hlt =>
    have hsize := i.toNat_lt_size
    have hone : UInt32.size - i.toNat = 1 := by omega
    simp [candidates, hone, hi]
  | case3 i hi =>
    have hstep : UInt32.size - i.toNat = UInt32.size - (i.toNat + 1) + 1 := by
      have hsize := i.toNat_lt_size
      omega
    rw [candidates, hstep, List.range'_succ, List.map_cons]
    simp [hi]

/-- No call lowers the watermark. -/
theorem watermark_le_after (r : Roster) (calls : List Call) :
    r.watermark ≤ (r.after calls).watermark := by
  induction calls generalizing r with
  | nil => exact UInt32.le_refl _
  | cons call calls ih =>
    have hmade := r.makes_perform call
    apply UInt32.le_trans _ (ih (r.perform call).2)
    generalize call.change? (r.perform call).1 = change, (r.perform call).2 = r' at hmade ⊢
    cases hmade with
    | join hc =>
      rw [UInt32.le_iff_toNat_le, toNat_watermark_enlist]
      exact Nat.le_max_left _ _
    | leave hc => exact UInt32.le_refl _
    | keep => exact UInt32.le_refl _

/-- The last channel is the only one that can be live at the watermark. -/
theorem watermark_mem_live_iff (calls : List Call) :
    let r := ({} : Roster).after calls
    (⟨r.watermark⟩ ∈ r.live ↔ .last ∈ r.live) ∧
      (.last ∈ r.live → ⟨r.watermark⟩ = Channel.last) := by
  intro r
  have hw : r.watermark.toNat = nextIndex (joined (({} : Roster).changes calls)) :=
    watermark_eq_nextIndex calls
  have hlive := mem_joined_of_mem_live calls
  have htop : .last ∈ r.live → ⟨r.watermark⟩ = Channel.last := by
    intro h
    rw [Channel.eq_last_iff]
    have hlast := Channel.last.eq_last_iff.mp rfl
    rcases lt_nextIndex (hlive _ h) with hlt | ⟨-, hnext⟩
    · have := r.watermark.toNat_lt_size
      simp only
      omega
    · simp only
      omega
  refine ⟨⟨fun h => ?_, fun h => htop h ▸ h⟩, htop⟩
  rcases lt_nextIndex (hlive _ h) with hlt | ⟨hlast, -⟩
  · simp only at hlt
    omega
  · exact hlast ▸ h

/-- The next automatic index is determined by the greatest index that was ever registered, live or
not: it is the one after, starting from zero and staying at the last. It is given out unless the
last index is live. Whenever it is, it is the least free index from the watermark on, searched for
in natural numbers; no index in use so far lies above it, and it is itself a new one unless it is
the last. The watermark stands at it and never falls. -/
theorem automatic_index (calls : List Call) :
    let r := ({} : Roster).after calls
    let used := joined (({} : Roster).changes calls)
    ∃ c : Channel, c.index.toNat = nextIndex used ∧
      r.register none =
        (if .last ∈ r.live then .error .channelsExhausted else .ok (c, r.enlist c)) ∧
      (r.register none).toOption.map Prod.fst =
        (candidates r.watermark.toNat).find? (· ∉ r.live) ∧
      (c ∈ used → c = .last) ∧ (∀ d ∈ used, d.index ≤ c.index) ∧
      r.watermark = c.index ∧ ∀ more, r.watermark ≤ (r.after more).watermark := by
  intro r used
  have hw : r.watermark.toNat = nextIndex used := watermark_eq_nextIndex calls
  obtain ⟨hmem, htop⟩ := watermark_mem_live_iff calls
  refine ⟨⟨r.watermark⟩, hw, ?_, ?_, ?_, ?_, rfl, r.watermark_le_after⟩
  · by_cases hlast : .last ∈ r.live
    · have hsize := (Channel.eq_last_iff _).mp (htop hlast)
      rw [if_pos hlast, register, firstFree?, if_pos ((r.mem_taken _).mpr (hmem.mpr hlast)),
        if_neg (Nat.ne_of_lt · hsize)]
    · rw [if_neg hlast, register, firstFree?, if_neg (mt (r.mem_taken _).mp (mt hmem.mp hlast))]
  · rw [register, firstFree?_eq_find?]
    simp only [r.mem_taken]
    cases (candidates r.watermark.toNat).find? (· ∉ r.live) <;> rfl
  · intro hc
    rcases lt_nextIndex hc with hlt | ⟨hlast, -⟩
    · simp only at hlt
      omega
    · exact hlast
  · intro d hd
    rw [UInt32.le_iff_toNat_le]
    rcases lt_nextIndex hd with hlt | ⟨hlast, hnext⟩
    · simp only
      omega
    · have := (Channel.eq_last_iff d).mp hlast
      simp only
      omega

-- At the top of the index space the last index is given out a second time.
example : let r := ({} : Roster).after [.register (some .last), .unregister .last]
    (r.register none).toOption.map Prod.fst = some .last := by decide +kernel

end Roster

end StreamFanout
