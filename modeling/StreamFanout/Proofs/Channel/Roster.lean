import StreamFanout.Channel.Roster

/-!
The list of live channels under registration and removal: it never repeats a channel, and only a
channel that is removed leaves it.
-/
namespace StreamFanout.Roster

theorem firstFree?_notMem {taken : List UInt32} {i : UInt32} {c : Channel}
    (h : firstFree? taken i = some c) : c.index ∉ taken := by
  fun_induction firstFree? taken i with
  | case1 i hi hlt ih => exact ih h
  | case2 i hi hlt => simp at h
  | case3 i hi =>
    rw [← Option.some.inj h]
    exact hi

/-- A registration that succeeds appends a channel that was not live. -/
theorem register_ok {r r' : Roster} {requested : Option Channel} {c : Channel}
    (h : r.register requested = .ok (c, r')) : c ∉ r.live ∧ r'.live = r.live ++ [c] := by
  cases requested with
  | some d =>
    simp only [register] at h
    split at h
    · cases h
    · next hd =>
      cases h
      exact ⟨mt contains_iff.mpr hd, rfl⟩
  | none =>
    simp only [register] at h
    split at h
    · next d hd =>
      cases h
      exact ⟨mt (r.mem_taken _).mpr (firstFree?_notMem hd), rfl⟩
    · cases h

theorem nodup_enlist {r : Roster} {c : Channel} (hr : r.live.Nodup) (hc : c ∉ r.live) :
    (r.enlist c).live.Nodup := by
  apply List.nodup_append.mpr
  refine ⟨hr, by simp, ?_⟩
  intro a ha b hb hab
  rw [List.mem_singleton.mp hb] at hab
  exact hc (hab ▸ ha)

theorem nodup_register {r r' : Roster} {requested : Option Channel} {c : Channel}
    (hr : r.live.Nodup) (h : r.register requested = .ok (c, r')) : r'.live.Nodup := by
  obtain ⟨hc, hl⟩ := register_ok h
  rw [hl]
  exact nodup_enlist hr hc

theorem nodup_unregister {r : Roster} (hr : r.live.Nodup) (c : Channel) :
    (r.unregister c).live.Nodup :=
  hr.filter _

theorem live_unregister {r : Roster} {c : Channel} (hr : r.live.Nodup) :
    (r.unregister c).live = r.live.erase c := by
  rw [hr.erase_eq_filter]
  exact List.filter_congr fun d _ => decide_not

theorem mem_unregister {r : Roster} {c d : Channel} (hd : d ∈ r.live) (hcd : d ≠ c) :
    d ∈ (r.unregister c).live :=
  List.mem_filter.mpr ⟨hd, by simpa using hcd⟩

end StreamFanout.Roster
