import StreamFanout.Fanout
import StreamFanout.Proofs.Channel.History

/-!
The live channels as a function of the history. A channel is live when its last change was to
join, and the live channels stand in the order of these last changes; so a channel that joins again
stands last, and one that leaves does not move the others.
-/
namespace StreamFanout.Roster

/-- The channels that joined and that no later change concerns, in the order in which they
joined. -/
def standing : List Change → List Channel
  | [] => []
  | .joined c :: later =>
    if ∀ x ∈ later, x.channel ≠ c then c :: standing later else standing later
  | .left _ :: later => standing later

/-- A change takes its channel off the list, and puts it at the end if it joins. -/
theorem standing_append (changes : List Change) (x : Change) : standing (changes ++ [x]) =
    (standing changes).filter (· ≠ x.channel) ++ x.joined?.toList := by
  induction changes with
  | nil => cases x <;> simp [standing]
  | cons y later ih =>
    cases y with
    | left d => exact ih
    | joined d =>
      simp only [List.cons_append, standing, ih, List.forall_mem_append, List.forall_mem_singleton]
      by_cases hlater : ∀ z ∈ later, z.channel ≠ d
      · by_cases hx : x.channel = d
        · rw [if_neg fun h => h.2 hx, if_pos hlater, List.filter_cons_of_neg (by simp [hx])]
        · have hd : d ≠ x.channel := Ne.symm hx
          rw [if_pos ⟨hlater, hx⟩, if_pos hlater, List.filter_cons_of_pos (by simpa using hd)]
          rfl
      · rw [if_neg fun h => hlater h.1, if_neg hlater]

theorem mem_standing {changes : List Change} {c : Channel} : c ∈ standing changes ↔
    ∃ before later, changes = before ++ .joined c :: later ∧ ∀ x ∈ later, x.channel ≠ c := by
  induction changes with
  | nil => simp [standing]
  | cons y later ih =>
    have hskip : c ∈ standing later → ∃ before rest,
        y :: later = before ++ .joined c :: rest ∧ ∀ x ∈ rest, x.channel ≠ c := by
      intro h
      obtain ⟨before, rest, rfl, hrest⟩ := ih.mp h
      exact ⟨y :: before, rest, rfl, hrest⟩
    constructor
    · intro h
      cases y with
      | left d => exact hskip h
      | joined d =>
        simp only [standing] at h
        split at h
        · next hd =>
          rcases List.mem_cons.mp h with rfl | h
          · exact ⟨[], later, rfl, hd⟩
          · exact hskip h
        · exact hskip h
    · rintro ⟨before, rest, heq, hrest⟩
      cases before with
      | nil =>
        obtain ⟨rfl, rfl⟩ := List.cons.inj heq
        simp [standing, if_pos hrest]
      | cons z before =>
        obtain ⟨rfl, rfl⟩ := List.cons.inj heq
        have h : c ∈ standing (before ++ .joined c :: rest) := ih.mpr ⟨before, rest, rfl, hrest⟩
        cases y with
        | left d => exact h
        | joined d =>
          simp only [standing]
          split
          · exact List.mem_cons_of_mem d h
          · exact h

theorem live_eq_standing (calls : List Call) :
    (({} : Roster).after calls).live = standing (({} : Roster).changes calls) := by
  apply run_induction (motive := fun done r => r.live = standing done) rfl
  intro done r change r' h hmade
  rw [standing_append, ← h]
  cases hmade with
  | join hc => exact congrArg (· ++ _) (filter_ne_eq_self hc).symm
  | leave hc => exact (List.append_nil _).symm

/-- No channel is listed twice, and there are as many as joined and did not leave. -/
theorem nodup_live_after (calls : List Call) :
    let r := ({} : Roster).after calls
    let changes := ({} : Roster).changes calls
    r.live.Nodup ∧
      r.live.length + changes.countP (·.joined?.isNone) = changes.countP (·.joined?.isSome) := by
  apply run_induction (motive := fun done r => r.live.Nodup ∧
    r.live.length + done.countP (·.joined?.isNone) = done.countP (·.joined?.isSome)) (by simp)
  rintro done r change r' ⟨hnodup, hcount⟩ hmade
  simp only [List.countP_append, List.countP_singleton]
  cases hmade with
  | @join c hc =>
    have hlength : (r.enlist c).live.length = r.live.length + 1 := List.length_append
    refine ⟨nodup_enlist hnodup hc, ?_⟩
    simp only [Change.joined?_joined, Option.isNone_some, Option.isSome_some, Bool.false_eq_true,
      if_false, if_true]
    omega
  | @leave c hc =>
    have hlength : (r.unregister c).live.length = r.live.length - 1 := by
      rw [live_unregister hnodup, List.length_erase_of_mem hc]
    have hpos := List.length_pos_of_mem hc
    refine ⟨nodup_unregister hnodup c, ?_⟩
    simp only [Change.joined?_left, Option.isNone_none, Option.isSome_none, Bool.false_eq_true,
      if_false, if_true]
    omega

/-- What stands on the roster is determined by the changes that its calls made: a channel is live
when it joined and no change concerned it after that, and the channels stand in the order in which
they joined. Each of them is listed once. A live channel is found, is refused to whoever asks for
it, and can be removed; any other one is not found, is given to whoever asks for it, and removing it
does nothing. Who joins stands last, and who leaves does not move the others. A fanout shows and
counts its roster as it is. -/
theorem live_determined (calls : List Call) :
    let r := ({} : Roster).after calls
    let changes := ({} : Roster).changes calls
    r.live = standing changes ∧ r.live.Nodup ∧
      (∀ c, c ∈ r.live ↔ ∃ before later,
        changes = before ++ .joined c :: later ∧ ∀ x ∈ later, x.channel ≠ c) ∧
      r.live.length + changes.countP (·.joined?.isNone) = changes.countP (·.joined?.isSome) ∧
      (∀ c, r.contains c = true ↔ c ∈ r.live) ∧
      (r.live.isEmpty = true ↔ ∀ c, r.contains c = false) ∧
      (∀ c, r.register (some c) =
        if c ∈ r.live then .error (.duplicateChannel c) else .ok (c, r.enlist c)) ∧
      (∀ requested c r', r.register requested = .ok (c, r') → r'.live = r.live ++ [c]) ∧
      (∀ c, r.perform (.unregister c) =
        if c ∈ r.live then (.unregistered true, r.unregister c) else (.unregistered false, r)) ∧
      (∀ c, (r.unregister c).live = r.live.erase c) ∧
      ∀ f : Fanout, f.roster = r → f.live = r.live ∧ f.stats.liveChannels = r.live.length ∧
        ∀ c, (f.release c).value.1 = true ↔ c ∈ r.live := by
  intro r changes
  have hlive : r.live = standing changes := live_eq_standing calls
  obtain ⟨hnodup, hcount⟩ := nodup_live_after calls
  have hcontains : ∀ c, r.contains c = true ↔ c ∈ r.live := fun c => contains_iff
  refine ⟨hlive, hnodup, fun c => by rw [hlive, mem_standing], hcount, hcontains, ?_, fun c => ?_,
    fun _ _ _ h => (register_ok h).2, fun c => ?_, fun c => live_unregister hnodup, ?_⟩
  · simp [List.eq_nil_iff_forall_not_mem, Bool.eq_false_iff, hcontains]
  · simp only [register, hcontains]
  · by_cases hc : c ∈ r.live
    · rw [if_pos hc, perform, (hcontains c).mpr hc]
    · have hfree : r.contains c = false := Bool.eq_false_iff.mpr (mt (hcontains c).mp hc)
      rw [if_neg hc, perform, hfree, unregister_eq_self hc]
  · rintro f hf
    refine ⟨congrArg Roster.live hf, congrArg (fun r => r.live.length) hf, fun c => ?_⟩
    rw [← hcontains, ← hf, Fanout.release]
    split
    · next hc => exact iff_of_true rfl hc
    · next hc => exact iff_of_false Bool.false_ne_true hc

end StreamFanout.Roster
