import StreamFanout.Proofs.EndOfStream
import StreamFanout.Proofs.HostCall

/-!
Counts that are carried along. Calls of the host and passes add to the counters and never look at
them, and the registry is read only for which channels are live, in which order, and for its
watermark. So a fanout that has counted something before does what one without these counts does.
-/
namespace StreamFanout

namespace Roster

/-- The rosters list the same channels under the same watermark; they may keep the taken indices in
different orders. -/
structure Same (r r' : Roster) : Prop where
  live_eq : r'.live = r.live
  watermark_eq : r'.watermark = r.watermark

theorem firstFree?_congr {taken taken' : List UInt32} (h : ∀ i, i ∈ taken' ↔ i ∈ taken)
    (i : UInt32) : firstFree? taken' i = firstFree? taken i := by
  fun_induction firstFree? taken i with
  | case1 i hi hlt ih => rw [firstFree?, if_pos ((h i).mpr hi), if_pos hlt, ih]
  | case2 i hi hlt => rw [firstFree?, if_pos ((h i).mpr hi), if_neg hlt]
  | case3 i hi => rw [firstFree?, if_neg (mt (h i).mp hi)]

namespace Same

variable {r r' : Roster}

theorem mem_taken_iff (h : Same r r') (i : UInt32) : i ∈ r'.taken ↔ i ∈ r.taken := by
  have hi : (⟨i⟩ : Channel) ∈ r'.live ↔ ⟨i⟩ ∈ r.live := by rw [h.live_eq]
  exact (r'.mem_taken ⟨i⟩).trans (hi.trans (r.mem_taken ⟨i⟩).symm)

theorem contains_eq (h : Same r r') : r'.contains = r.contains :=
  funext fun c => decide_eq_decide.mpr (h.mem_taken_iff c.index)

theorem enlist (h : Same r r') (c : Channel) : Same (r.enlist c) (r'.enlist c) :=
  ⟨congrArg (· ++ [c]) h.live_eq, by rw [Roster.enlist, h.watermark_eq]; rfl⟩

theorem unregister (h : Same r r') (c : Channel) : Same (r.unregister c) (r'.unregister c) :=
  ⟨congrArg (List.filter _) h.live_eq, h.watermark_eq⟩

/-- Both rosters enlist the same channel, or refuse alike. -/
theorem register (h : Same r r') (requested : Option Channel) :
    (∃ c, r.register requested = .ok (c, r.enlist c) ∧
      r'.register requested = .ok (c, r'.enlist c)) ∨
    ∃ e, r.register requested = .error e ∧ r'.register requested = .error e := by
  cases requested with
  | some c =>
    simp only [Roster.register, h.contains_eq]
    cases r.contains c with
    | false => exact .inl ⟨c, rfl, rfl⟩
    | true => exact .inr ⟨_, rfl, rfl⟩
  | none =>
    simp only [Roster.register, firstFree?_congr h.mem_taken_iff, h.watermark_eq]
    cases firstFree? r.taken r.watermark with
    | some c => exact .inl ⟨c, rfl, rfl⟩
    | none => exact .inr ⟨_, rfl, rfl⟩

end Same

end Roster

def Counters.plus (base c : Counters) : Counters where
  unitsIngested := base.unitsIngested + c.unitsIngested
  unitsRejected := base.unitsRejected + c.unitsRejected
  unitsPushed := base.unitsPushed + c.unitsPushed
  unitsDropped := base.unitsDropped + c.unitsDropped
  sessionsDistributed := base.sessionsDistributed + c.sessionsDistributed

def HostResult.plus (base : Counters) : HostResult → HostResult
  | .stats s => .stats { s with counters := base.plus s.counters }
  | result => result

namespace Fanout

/-- `f'` is `f`, but that it has counted `base` before. -/
structure Carries (base : Counters) (f f' : Fanout) : Prop where
  config_eq : f'.config = f.config
  roster : f.roster.Same f'.roster
  grouping_eq : f'.grouping = f.grouping
  counters_eq : f'.counters = base.plus f.counters

/-- Two computations show and log the same, and the second one carries `base`. -/
structure Agree (base : Counters) {α : Type} (x y : Logged (α × Fanout)) : Prop where
  value_eq : y.value.1 = x.value.1
  log_eq : y.log = x.log
  carries : x.value.2.Carries base y.value.2

variable {base : Counters} {f f' : Fanout} {α β : Type}

theorem Carries.exists_eq (h : f.Carries base f') : ∃ roster, f.roster.Same roster ∧
    f' = { f with roster, counters := base.plus f.counters } := by
  obtain ⟨config, roster, grouping, counters⟩ := f'
  obtain ⟨rfl, hr, rfl, rfl⟩ := h
  exact ⟨roster, hr, rfl⟩

theorem Carries.agree_pure (h : f.Carries base f') (a : α) :
    Agree base (pure (a, f)) (pure (a, f')) :=
  ⟨rfl, rfl, h⟩

namespace Agree

/-- Computations that agree go on to agree. -/
theorem bind {x y : Logged (α × Fanout)} (h : Agree base x y)
    {k k' : α × Fanout → Logged (β × Fanout)}
    (hk : ∀ a f f', f.Carries base f' → Agree base (k (a, f)) (k' (a, f'))) :
    Agree base (x >>= k) (y >>= k') := by
  have hnext := hk x.value.1 _ _ h.carries
  have hy : y.value = (x.value.1, y.value.2) := Prod.ext h.value_eq rfl
  refine ⟨?_, ?_, ?_⟩
  · rw [Logged.value_bind, Logged.value_bind, hy]
    exact hnext.value_eq
  · rw [Logged.log_bind, Logged.log_bind, h.log_eq, hy]
    exact congrArg (x.log ++ ·) hnext.log_eq
  · rw [Logged.value_bind, Logged.value_bind, hy]
    exact hnext.carries

/-- What does not look at the fanout may stand in front. -/
theorem after (x : Logged α) {k k' : α → Logged (β × Fanout)}
    (h : ∀ a, Agree base (k a) (k' a)) : Agree base (x >>= k) (x >>= k') := by
  obtain ⟨hvalue, hlog, hcarries⟩ := h x.value
  exact ⟨hvalue, by rw [Logged.log_bind, Logged.log_bind, hlog], hcarries⟩

end Agree

theorem Carries.arrive (h : f.Carries base f') (u : AccessUnit) :
    Agree base (f.arrive u) (f'.arrive u) := by
  obtain ⟨roster, hr, rfl⟩ := h.exists_eq
  refine .after _ fun ⟨result, grouping⟩ => ?_
  cases result with
  | ok => exact ⟨rfl, rfl, rfl, hr, rfl, rfl⟩
  | error e => exact .after _ fun _ => ⟨rfl, rfl, rfl, hr, rfl, rfl⟩

theorem Carries.arriveAll (h : f.Carries base f') (us : List AccessUnit) :
    Agree base (f.arriveAll us) (f'.arriveAll us) := by
  induction us generalizing f f' with
  | nil => exact h.agree_pure _
  | cons u us ih =>
    refine (h.arrive u).bind fun r g g' hg => (ih hg).bind fun ⟨accepted, refused⟩ _ _ hrest => ?_
    cases r with
    | ok => exact hrest.agree_pure _
    | error e => exact hrest.agree_pure _

theorem Carries.request (h : f.Carries base f') (requested : Option Channel) :
    Agree base (f.request requested) (f'.request requested) := by
  obtain ⟨roster, hr, rfl⟩ := h.exists_eq
  unfold Fanout.request
  rcases hr.register requested with ⟨c, hc, hc'⟩ | ⟨e, he, he'⟩
  · simp only [hc, hc']
    rw [(hr.enlist c).live_eq]
    exact .after _ fun _ => ⟨rfl, rfl, rfl, hr.enlist c, rfl, rfl⟩
  · simp only [he, he']
    exact .after _ fun _ => ⟨rfl, rfl, rfl, hr, rfl, rfl⟩

theorem Carries.requestNamed (h : f.Carries base f') (name : String) :
    Agree base (f.requestNamed name) (f'.requestNamed name) := by
  simp only [Fanout.requestNamed, h.config_eq]
  split
  · exact .after _ fun _ => h.request _
  · exact h.request _

theorem Carries.release (h : f.Carries base f') (c : Channel) :
    Agree base (f.release c) (f'.release c) := by
  simp only [Fanout.release, h.roster.contains_eq, (h.roster.unregister c).live_eq]
  split
  · exact .after _ fun _ =>
      ⟨rfl, rfl, h.config_eq, h.roster.unregister c, h.grouping_eq, h.counters_eq⟩
  · exact h.agree_pure _

/-- A call of the host does the same, but that it tells what was counted before, too. -/
theorem Carries.perform (h : f.Carries base f') (call : HostCall) :
    (f'.perform call).value.1 = (f.perform call).value.1.plus base ∧
      (f'.perform call).log = (f.perform call).log ∧
      (f.perform call).value.2.Carries base (f'.perform call).value.2 := by
  have wrap {α : Type} (result : α → HostResult) (hresult : ∀ a, (result a).plus base = result a)
      {x y : Logged (α × Fanout)} (hxy : Agree base x y) :
      let shown (z : Logged (α × Fanout)) : Logged (HostResult × Fanout) := do
        let (r, g) ← z
        pure (result r, g)
      (shown y).value.1 = (shown x).value.1.plus base ∧ (shown y).log = (shown x).log ∧
        (shown x).value.2.Carries base (shown y).value.2 :=
    ⟨(congrArg result hxy.value_eq).trans (hresult _).symm, by
      rw [Logged.log_bind, Logged.log_bind, hxy.log_eq]; rfl, hxy.carries⟩
  cases call with
  | arrive u => exact wrap .arrived (fun _ => rfl) (h.arrive u)
  | arriveAll us =>
    exact wrap (fun counted => .arrivedAll counted.1 counted.2) (fun _ => rfl) (h.arriveAll us)
  | request c => exact wrap .requested (fun _ => rfl) (h.request c)
  | requestNamed name => exact wrap .requested (fun _ => rfl) (h.requestNamed name)
  | release c => exact wrap .released (fun _ => rfl) (h.release c)
  | live => exact ⟨congrArg HostResult.live h.roster.live_eq, rfl, h⟩
  | stats =>
    obtain ⟨roster, hr, rfl⟩ := h.exists_eq
    refine ⟨?_, rfl, h⟩
    simp only [Fanout.perform, Fanout.stats, Logged.value_pure, hr.live_eq]
    rfl
  | config => exact ⟨congrArg HostResult.config h.config_eq, rfl, h⟩

/-- The end of a pass adds to the counters what it adds without what was counted before. -/
theorem Carries.follow (h : f.Carries base f') (p : Progress) :
    Agree base (f.follow p) (f'.follow p) := by
  obtain ⟨roster, hr, rfl⟩ := h.exists_eq
  cases p with
  | waiting pass => exact h.agree_pure _
  | finished plan lanes =>
    have hbook : Agree base (f.book plan lanes)
        (book { f with roster, counters := base.plus f.counters } plan lanes) := by
      simp only [book]
      split
      · refine .after _ fun _ => ⟨rfl, rfl, rfl, hr, rfl, ?_⟩
        simp only [Logged.value_pure, Counters.plus, Nat.add_assoc]
      · refine .after _ fun _ => ⟨rfl, rfl, rfl, hr, rfl, ?_⟩
        simp only [Logged.value_pure, Counters.plus, Nat.add_assoc]
    exact hbook.bind fun result g g' hg => hg.agree_pure _
  | discarded gops =>
    refine ⟨rfl, rfl, rfl, hr, rfl, ?_⟩
    simp only [Fanout.follow, discard, Logged.value_pure, Counters.plus, Nat.add_assoc]

theorem Carries.endStream (h : f.Carries base f') : Agree base f.endStream f'.endStream := by
  simp only [Fanout.endStream, live, h.grouping_eq, h.roster.live_eq]
  exact .after _ fun gops => .after _ fun _ => .after _ fun _ =>
    ⟨rfl, rfl, h.config_eq, h.roster, rfl, h.counters_eq⟩

theorem Carries.resume (h : f.Carries base f') (pass : Pass) (answer : Answer) :
    Agree base (f.resume pass answer) (f'.resume pass answer) := by
  simp only [Fanout.resume, h.config_eq, h.roster.contains_eq]
  exact .after _ fun p => h.follow p

end Fanout

end StreamFanout
