import StreamFanout.Distribution.Pass

/-!
Logs seen through a view, which hides some events and may change others. Computations whose steps
look the same through a view look the same, and a pass looks the same whether it logs single units
or not, if the view hides these.
-/
namespace StreamFanout

namespace Logged

variable {α β : Type} {seen : LogEvent → Option LogEvent}

def view (seen : LogEvent → Option LogEvent) (x : Logged α) : Logged α :=
  ⟨x.value, x.log.filterMap seen⟩

@[simp] theorem value_view (x : Logged α) : (x.view seen).value = x.value := rfl

@[simp] theorem log_view (x : Logged α) : (x.view seen).log = x.log.filterMap seen := rfl

theorem view_bind (x : Logged α) (k : α → Logged β) :
    (x >>= k).view seen = x.view seen >>= fun a => (k a).view seen := by
  apply Logged.ext
  · rfl
  · simp [List.filterMap_append]

theorem view_bind_congr {x y : Logged α} {k k' : α → Logged β} (h : x.view seen = y.view seen)
    (hk : ∀ a, (k a).view seen = (k' a).view seen) :
    (x >>= k).view seen = (y >>= k').view seen := by
  rw [view_bind, view_bind, h]
  simp only [hk]

/-- What is hidden may as well not be logged. -/
theorem view_emit_hidden {e : LogEvent} (h : seen e = none) :
    (emit e).view seen = (pure () : Logged Unit).view seen := by
  apply Logged.ext
  · rfl
  · simp [h]

theorem view_emit_congr {e e' : LogEvent} (h : seen e = seen e') :
    (emit e).view seen = (emit e').view seen := by
  apply Logged.ext
  · rfl
  · simp [List.filterMap_cons, h]

variable {σ τ : Type} {R : σ → σ → Prop} {S : τ → τ → Prop}

/-- Two computations give back the same, look the same in the log and leave related states. -/
structure Matches (seen : LogEvent → Option LogEvent) (R : σ → σ → Prop) (x y : Logged (α × σ)) :
    Prop where
  value_eq : y.value.1 = x.value.1
  view_eq : y.log.filterMap seen = x.log.filterMap seen
  related : R x.value.2 y.value.2

namespace Matches

theorem done {s s' : σ} (h : R s s') (a : α) : Matches seen R (pure (a, s)) (pure (a, s')) :=
  ⟨rfl, rfl, h⟩

theorem bind {x y : Logged (α × σ)} (h : Matches seen R x y) {k k' : α × σ → Logged (β × τ)}
    (hk : ∀ a s s', R s s' → Matches seen S (k (a, s)) (k' (a, s'))) :
    Matches seen S (x >>= k) (y >>= k') := by
  have hnext := hk x.value.1 _ _ h.related
  have hy : y.value = (x.value.1, y.value.2) := Prod.ext h.value_eq rfl
  constructor
  · rw [value_bind, value_bind, hy]
    exact hnext.value_eq
  · rw [log_bind, log_bind, List.filterMap_append, List.filterMap_append, h.view_eq, hy]
    exact congrArg (x.log.filterMap seen ++ ·) hnext.view_eq
  · rw [value_bind, value_bind, hy]
    exact hnext.related

/-- What looks the same and has no state may stand in front. -/
theorem after {x y : Logged α} (h : x.view seen = y.view seen) {k k' : α → Logged (β × σ)}
    (hk : ∀ a, Matches seen R (k a) (k' a)) : Matches seen R (x >>= k) (y >>= k') := by
  obtain ⟨hvalue, hlog⟩ : x.value = y.value ∧ x.log.filterMap seen = y.log.filterMap seen := by
    simpa [view] using h
  obtain ⟨hv, hl, hr⟩ := hk x.value
  constructor
  · rw [value_bind, value_bind, ← hvalue]
    exact hv
  · rw [log_bind, log_bind, List.filterMap_append, List.filterMap_append, ← hlog, ← hvalue, hl]
  · rw [value_bind, value_bind, ← hvalue]
    exact hr

end Matches

end Logged

namespace Pass

variable {seen : LogEvent → Option LogEvent} {live : Channel → Bool} {silent silent' : Bool}

theorem view_announce (hidden : ∀ c pts, seen (.pushingUnit c pts) = none) (c : Channel)
    (u : AccessUnit) : (announce silent c u).view seen = (announce silent' c u).view seen := by
  have hpure (s : Bool) : (announce s c u).view seen = (pure () : Logged Unit).view seen := by
    unfold announce
    split
    · rfl
    · exact Logged.view_emit_hidden (hidden c u.pts)
  rw [hpure, hpure]

theorem view_resume (hidden : ∀ c pts, seen (.pushingUnit c pts) = none) (answer : Answer)
    (p : Pass) :
    (resume live silent answer p).view seen = (resume live silent' answer p).view seen := by
  cases p with
  | looking plan served lane gop upcoming round =>
    rw [resume, resume]
    split
    · apply Logged.view_bind_congr rfl
      intro _
      apply Logged.view_bind_congr (view_announce hidden _ _)
      intro _
      rfl
    · rfl
  | pushing plan served lane unit rest upcoming round =>
    cases answer with
    | accepted =>
      cases rest with
      | nil => rfl
      | cons u rest =>
        apply Logged.view_bind_congr (view_announce hidden _ _)
        intro _
        rfl
    | refused reason => rfl
  | ending | booking | discarding => rfl

end Pass

end StreamFanout
