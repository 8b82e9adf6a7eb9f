import StreamFanout.Proofs.Channel.Roster

/-!
Histories of a roster: registrations and removals in any order, and what they give back. A call
that succeeds makes one change and a call that fails makes none, so what is true of a roster at any
time follows from what the changes keep true.
-/
namespace StreamFanout.Roster

inductive Call where
  | register (requested : Option Channel)
  | unregister (channel : Channel)
  deriving DecidableEq

inductive Result where
  | registered (result : Except FanoutError Channel)
  | unregistered (wasLive : Bool)

/-- A failed registration leaves the roster as it is. -/
def perform (r : Roster) : Call → Result × Roster
  | .register requested =>
    match r.register requested with
    | .ok (c, r') => (.registered (.ok c), r')
    | .error e => (.registered (.error e), r)
  | .unregister c => (.unregistered (r.contains c), r.unregister c)

def after (r : Roster) : List Call → Roster
  | [] => r
  | call :: calls => (r.perform call).2.after calls

/-- A call that succeeded. -/
inductive Change where
  | joined (channel : Channel)
  | left (channel : Channel)
  deriving DecidableEq

namespace Change

def channel : Change → Channel
  | joined c | left c => c

def joined? : Change → Option Channel
  | joined c => some c
  | left _ => none

@[simp] theorem joined?_joined (c : Channel) : (joined c).joined? = some c := rfl

@[simp] theorem joined?_left (c : Channel) : (left c).joined? = none := rfl

end Change

/-- The change that a call has made, as what it gave back tells. -/
def Call.change? : Call → Result → Option Change
  | register _, .registered (.ok c) => some (.joined c)
  | unregister c, .unregistered true => some (.left c)
  | _, _ => none

def changes (r : Roster) : List Call → List Change
  | [] => []
  | call :: calls => (call.change? (r.perform call).1).toList ++ (r.perform call).2.changes calls

/-- What a call can do to a roster. -/
inductive Makes (r : Roster) : Option Change → Roster → Prop where
  | join {c : Channel} (hc : c ∉ r.live) : r.Makes (some (.joined c)) (r.enlist c)
  | leave {c : Channel} (hc : c ∈ r.live) : r.Makes (some (.left c)) (r.unregister c)
  | keep : r.Makes none r

/-- Registration, requested or automatic, enlists the channel that it gives back. -/
theorem register_eq_enlist {r r' : Roster} {requested : Option Channel} {c : Channel}
    (h : r.register requested = .ok (c, r')) : r' = r.enlist c := by
  cases requested with
  | some d =>
    simp only [register] at h
    split at h <;> cases h
    rfl
  | none =>
    simp only [register] at h
    split at h <;> cases h
    rfl

theorem filter_ne_eq_self {α : Type} [DecidableEq α] {xs : List α} {x : α} (hx : x ∉ xs) :
    xs.filter (· ≠ x) = xs := by
  apply List.filter_eq_self.mpr
  intro y hy
  simpa using fun he : y = x => hx (he ▸ hy)

theorem unregister_eq_self {r : Roster} {c : Channel} (hc : c ∉ r.live) : r.unregister c = r := by
  have hfree : c.index ∉ r.taken := mt (r.mem_taken c).mp hc
  simp only [unregister, filter_ne_eq_self hc, filter_ne_eq_self hfree]

theorem makes_perform (r : Roster) (call : Call) :
    r.Makes (call.change? (r.perform call).1) (r.perform call).2 := by
  cases call with
  | register requested =>
    cases h : r.register requested with
    | error e =>
      simp only [perform, h, Call.change?]
      exact .keep
    | ok given =>
      obtain ⟨c, r'⟩ := given
      have hjoin := Makes.join (register_ok h).1
      simpa only [perform, h, Call.change?, register_eq_enlist h] using hjoin
  | unregister c =>
    by_cases hc : c ∈ r.live
    · have hleave := Makes.leave hc
      simpa only [perform, contains_iff.mpr hc, Call.change?] using hleave
    · have hfree : r.contains c = false := Bool.eq_false_iff.mpr (mt contains_iff.mp hc)
      simp only [perform, hfree, Call.change?, unregister_eq_self hc]
      exact .keep

/-- What holds of the empty roster, and goes on to hold with each change, holds after all calls. -/
theorem run_induction {motive : List Change → Roster → Prop} (hnew : motive [] {})
    (hchange : ∀ {done r change r'}, motive done r → r.Makes (some change) r' →
      motive (done ++ [change]) r')
    (calls : List Call) : motive (({} : Roster).changes calls) (({} : Roster).after calls) := by
  have run (calls : List Call) (done : List Change) (r : Roster) (h : motive done r) :
      motive (done ++ r.changes calls) (r.after calls) := by
    induction calls generalizing done r with
    | nil => simpa [changes, after] using h
    | cons call calls ih =>
      have hmade := r.makes_perform call
      simp only [changes, after]
      cases hc : call.change? (r.perform call).1 with
      | none =>
        rw [hc] at hmade
        generalize (r.perform call).2 = r' at hmade ⊢
        cases hmade
        exact ih done r h
      | some change =>
        rw [hc] at hmade
        simpa using ih (done ++ [change]) _ (hchange h hmade)
  exact run calls [] {} hnew

end StreamFanout.Roster
