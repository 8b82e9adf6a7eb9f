import StreamFanout.Proofs.Interleaving.Passes

/-!
Conservation of units over every run. A unit that was taken in is counted as pushed or dropped, or
it is buffered, or it belongs to a pass that has not ended: one in flight, or one that was dropped
before it could count what became of its units.
-/
namespace StreamFanout.Interleaving

/-- The number of a stream that a step ends, and how many units its pass takes. -/
def taking (i : Interleaving) : Step → List (Nat × Nat)
  | .endStream => [(i.streamsEnded, Gop.unitCount i.fanout.grouping.groups)]
  | _ => []

def takings (i : Interleaving) : List Step → List (Nat × Nat)
  | [] => []
  | s :: steps => i.taking s ++ takings (i.step s).value.2 steps

/-- What was taken in a run by passes that have not ended since. -/
def outstanding (i : Interleaving) (steps : List Step) : List (Nat × Nat) :=
  (i.takings steps).filter fun t => ¬i.Ends t.1 steps

def total (entries : List (Nat × Nat)) : Nat :=
  sumOf Prod.snd entries

/-- `entries` are the open accounts of a state: what is neither counted nor buffered belongs to
one of them, and each pass in flight has one of its own. -/
structure Ledger (i : Interleaving) (entries : List (Nat × Nat)) : Prop where
  balance : i.fanout.counters.unitsIngested =
    i.fanout.counters.unitsPushed + i.fanout.counters.unitsDropped +
      Gop.unitCount i.fanout.grouping.groups + total entries
  numbers_nodup : (entries.map Prod.fst).Nodup
  number_lt : ∀ t ∈ entries, t.1 < i.streamsEnded
  account : ∀ n p, i.pass? n = some p → (n, p.units) ∈ entries ∧ p.InStep
  grouped : ∃ us, i.fanout.grouping.Groups us

variable {i : Interleaving} {s : Step} {r : StepResult × Interleaving}
  {entries : List (Nat × Nat)} {n u : Nat}

theorem total_append (xs ys : List (Nat × Nat)) : total (xs ++ ys) = total xs + total ys := by
  simp [total]

/-- To close an account takes its units out of the total. -/
theorem total_close (hd : (entries.map Prod.fst).Nodup) (hm : (n, u) ∈ entries) :
    total entries = u + total (entries.filter (·.1 ≠ n)) := by
  obtain ⟨xs, ys, rfl⟩ := List.append_of_mem hm
  rw [List.map_append, List.map_cons, List.nodup_append] at hd
  obtain ⟨-, hys, hxs⟩ := hd
  have hx : xs.filter (·.1 ≠ n) = xs := by
    apply List.filter_eq_self.mpr
    intro t ht
    have hne := hxs t.1 (List.mem_map_of_mem ht) n List.mem_cons_self
    simpa using hne
  have hy : ys.filter (·.1 ≠ n) = ys := by
    apply List.filter_eq_self.mpr
    intro t ht
    have hm : t.1 ∈ ys.map Prod.fst := List.mem_map_of_mem ht
    have hne : t.1 ≠ n := fun he => (List.nodup_cons.mp hys).1 (he ▸ hm)
    simpa using hne
  have hn : ((n, u) :: ys).filter (·.1 ≠ n) = ys := by
    rw [List.filter_cons_of_neg (by simp), hy]
  rw [List.filter_append, hx, hn, total_append, total_append]
  simp only [total, sumOf_cons]
  omega

def close (r : StepResult) (entries : List (Nat × Nat)) : List (Nat × Nat) :=
  entries.filter fun t => !r.ends t.1

theorem close_eq_self {r : StepResult} (h : ∀ t ∈ entries, r.ends t.1 = false) :
    close r entries = entries := by
  unfold close
  apply List.filter_eq_self.mpr
  intro t ht
  rw [h t ht]
  rfl

theorem close_ended (n : Nat) (result : Except FanoutError Report) (entries : List (Nat × Nat)) :
    close (.ended n result) entries = entries.filter (·.1 ≠ n) := by
  unfold close
  congr 1
  funext t
  simp [StepResult.ends, eq_comm]

theorem unitCount_groups_of {g : Grouping} {us : List AccessUnit} (h : g.Groups us) :
    Gop.unitCount g.groups = us.length := by
  rw [← h.units_eq, Grouping.units, Gop.length_flatten]

/-- What the passes in flight have, they keep when another one leaves. -/
theorem Ledger.account_land (h : i.Ledger entries) (n : Nat) :
    ∀ m p, (i.land n).pass? m = some p →
      (m, p.units) ∈ entries.filter (·.1 ≠ n) ∧ p.InStep := by
  intro m p hp
  rw [pass?_land] at hp
  split at hp
  · cases hp
  · next hm =>
    obtain ⟨hmem, hs⟩ := h.account m p hp
    exact ⟨List.mem_filter.mpr ⟨hmem, by simpa using hm⟩, hs⟩

theorem Ledger.call (h : i.Ledger entries) (c : HostCall) :
    Ledger { i with fanout := (i.fanout.perform c).value.2 } entries := by
  obtain ⟨us, hus⟩ := h.grouped
  have ha := i.fanout.perform_absorbs c
  have hus' := ha.groups us hus
  refine ⟨?_, h.numbers_nodup, h.number_lt, h.account, _, hus'⟩
  have hb := h.balance
  rw [unitCount_groups_of hus] at hb
  rw [ha.ingested_eq, ha.pushed_eq, ha.dropped_eq, unitCount_groups_of hus', List.length_append,
    List.length_map, hb]
  omega

theorem Ledger.empty (h : i.Ledger entries) (hg : i.fanout.grouping.groups = []) :
    Ledger (land { i with
      fanout := { i.fanout with grouping := {} }
      streamsEnded := i.streamsEnded + 1 } i.streamsEnded) entries := by
  refine ⟨?_, h.numbers_nodup, fun t ht => Nat.lt_succ_of_lt (h.number_lt t ht), ?_, [],
    Grouping.groups_empty⟩
  · have hb := h.balance
    rw [hg] at hb
    exact hb
  · intro m p hp
    obtain ⟨hm, hs⟩ := h.account_land i.streamsEnded m p hp
    exact ⟨(List.mem_filter.mp hm).1, hs⟩

theorem Ledger.start (h : i.Ledger entries) :
    Ledger (hold { i with
      fanout := { i.fanout with grouping := {} }
      streamsEnded := i.streamsEnded + 1 } i.streamsEnded i.fanout.opening)
      (entries ++ [(i.streamsEnded, Gop.unitCount i.fanout.grouping.groups)]) := by
  constructor
  · have hb := h.balance
    rw [total_append]
    simp only [total, sumOf_cons, sumOf_nil] at hb ⊢
    show i.fanout.counters.unitsIngested = i.fanout.counters.unitsPushed +
      i.fanout.counters.unitsDropped + 0 + _
    omega
  · rw [List.map_append, List.nodup_append]
    refine ⟨h.numbers_nodup, by simp, ?_⟩
    intro a ha b hb
    obtain ⟨t, ht, rfl⟩ := List.mem_map.mp ha
    rw [List.mem_singleton.mp hb]
    exact Nat.ne_of_lt (h.number_lt t ht)
  · intro t ht
    rcases List.mem_append.mp ht with ht | ht
    · exact Nat.lt_succ_of_lt (h.number_lt t ht)
    · rw [List.mem_singleton.mp ht]
      exact Nat.lt_succ_self _
  · intro m q hq
    rw [pass?_hold] at hq
    split at hq
    · next hm =>
      cases hq
      rw [hm, Fanout.units_opening]
      exact ⟨List.mem_append_right _ List.mem_cons_self, i.fanout.inStep_opening⟩
    · obtain ⟨hmem, hs⟩ := h.account m q hq
      exact ⟨List.mem_append_left _ hmem, hs⟩
  · exact ⟨[], Grouping.groups_empty⟩

theorem Ledger.proceed (h : i.Ledger entries) {p p' : Pass} (hp : i.pass? n = some p)
    (hu : p'.units = p.units) (hs : p'.InStep) : (i.hold n p').Ledger entries := by
  refine ⟨h.balance, h.numbers_nodup, h.number_lt, ?_, h.grouped⟩
  intro m q hq
  rw [pass?_hold] at hq
  split at hq
  · next hm =>
    cases hq
    rw [hm, hu]
    exact ⟨(h.account n p hp).1, hs⟩
  · exact h.account m q hq

/-- The account of a pass is closed when its units are counted. -/
theorem Ledger.closed (h : i.Ledger entries) {p : Pass} (hp : i.pass? n = some p) {f : Fanout}
    (hgrouping : f.grouping = i.fanout.grouping)
    (hingested : f.counters.unitsIngested = i.fanout.counters.unitsIngested)
    (hcounted : f.counters.unitsPushed + f.counters.unitsDropped =
      i.fanout.counters.unitsPushed + i.fanout.counters.unitsDropped + p.units) :
    Ledger (land { i with fanout := f } n) (entries.filter (·.1 ≠ n)) := by
  refine ⟨?_, ?_, fun t ht => h.number_lt t (List.mem_filter.mp ht).1, h.account_land n, ?_⟩
  · have hb := h.balance
    rw [total_close h.numbers_nodup (h.account n p hp).1] at hb
    show f.counters.unitsIngested = f.counters.unitsPushed + f.counters.unitsDropped +
      Gop.unitCount f.grouping.groups + _
    rw [hingested, hcounted, hgrouping, hb]
    omega
  · exact h.numbers_nodup.sublist (List.Sublist.map _ (List.filter_sublist))
  · exact hgrouping ▸ h.grouped

theorem Ledger.resumed (h : i.Ledger entries) {p : Pass} (hp : i.pass? n = some p) (a : Answer) :
    (p.resume i.fanout.roster.contains i.fanout.config.silent a).value.units = p.units ∧
      (p.resume i.fanout.roster.contains i.fanout.config.silent a).value.InStep :=
  ⟨Pass.units_resume _ _ p a, Pass.inStep_resume _ _ (h.account n p hp).2 a⟩

theorem Ledger.step (h : i.Ledger entries) (ht : i.Takes s r) :
    r.2.Ledger (close r.1 (entries ++ i.taking s)) := by
  -- Only the end of a pass closes an entry.
  have quiet (result : StepResult) (hr : ∀ n, result.ends n = false) (xs : List (Nat × Nat)) :
      close result xs = xs := close_eq_self fun t _ => hr t.1
  cases ht with
  | call c =>
    rw [quiet _ fun _ => rfl, show i.taking (.call c) = [] from rfl, List.append_nil]
    exact h.call c
  | empty hg hl =>
    have hclose : close (.ended i.streamsEnded (.error .noData)) (entries ++ i.taking .endStream) =
        entries := by
      rw [close_ended, taking, List.filter_append, List.filter_cons_of_neg (by simp),
        List.filter_nil, List.append_nil, List.filter_eq_self]
      intro t ht
      simpa using Nat.ne_of_lt (h.number_lt t ht)
    rw [hclose]
    exact h.empty hg
  | start ho =>
    rw [quiet _ fun _ => rfl]
    exact h.start
  | proceed n a p p' hp hr =>
    rw [quiet _ fun _ => rfl, show i.taking (.resume n a) = [] from rfl, List.append_nil]
    have hkept := h.resumed hp a
    rw [hr] at hkept
    exact h.proceed hp hkept.1 hkept.2
  | finish n a p plan lanes hp hr =>
    rw [close_ended, show i.taking (.resume n a) = [] from rfl, List.append_nil]
    obtain ⟨hu, hs⟩ := h.resumed hp a
    rw [hr] at hu hs
    have hcounted : Lane.totalPushed lanes + Lane.totalDropped lanes = p.units :=
      (Lane.totalUnits_of_drained hs.2).symm.trans hu
    refine h.closed hp rfl rfl ?_
    show _ + Lane.totalPushed lanes + (_ + Lane.totalDropped lanes) = _
    omega
  | discard n a p gops hp hr =>
    rw [close_ended, show i.taking (.resume n a) = [] from rfl, List.append_nil]
    obtain ⟨hu, -⟩ := h.resumed hp a
    rw [hr] at hu
    exact h.closed hp rfl rfl (by rw [← hu]; exact (Nat.add_assoc _ _ _).symm)
  | drop n p hp =>
    rw [quiet _ fun _ => rfl, show i.taking (.abandon n) = [] from rfl, List.append_nil]
    refine ⟨h.balance, h.numbers_nodup, h.number_lt, fun m q hq => ?_, h.grouped⟩
    obtain ⟨hm, hs⟩ := h.account_land n m q hq
    exact ⟨(List.mem_filter.mp hm).1, hs⟩
  | void s n hs hp =>
    have hnone : i.taking s = [] := by
      cases s with
      | endStream => cases hs
      | _ => rfl
    rw [quiet _ fun _ => rfl, hnone, List.append_nil]
    exact h

theorem le_of_mem_takings (i : Interleaving) (steps : List Step) :
    ∀ t ∈ i.takings steps, i.streamsEnded ≤ t.1 := by
  induction steps generalizing i with
  | nil => simp [takings]
  | cons s steps ih =>
    intro t ht
    rcases List.mem_append.mp ht with ht | ht
    · cases s with
      | endStream => exact Nat.le_of_eq (congrArg Prod.fst (List.mem_singleton.mp ht)).symm
      | _ => cases ht
    · exact Nat.le_trans (i.takes_step s).streamsEnded_le (ih (i.step s).value.2 t ht)

/-- The open accounts after a run are those of the passes that have not ended in it. -/
theorem Ledger.after (hi : i.Sound) (h : i.Ledger entries) (steps : List Step) :
    (i.after steps).Ledger ((entries ++ i.takings steps).filter fun t => ¬i.Ends t.1 steps) := by
  induction steps generalizing i entries with
  | nil =>
    have hall : (entries ++ i.takings []).filter (fun t => ¬i.Ends t.1 []) = entries := by
      rw [takings, List.append_nil, List.filter_eq_self]
      rintro t -
      exact decide_eq_true fun ⟨_, he⟩ => List.not_mem_nil he
    rw [hall]
    exact h
  | cons s steps ih =>
    have ht := i.takes_step s
    have hopen : (entries ++ i.taking s).filter (fun t => ¬i.Ends t.1 (s :: steps)) =
        (close (i.step s).value.1 (entries ++ i.taking s)).filter
          fun t => ¬(i.step s).value.2.Ends t.1 steps := by
      unfold close
      rw [List.filter_filter]
      apply List.filter_congr
      intro t _
      simp [ends_cons_iff, and_comm]
    have hlater : ((i.step s).value.2.takings steps).filter (fun t => ¬i.Ends t.1 (s :: steps)) =
        ((i.step s).value.2.takings steps).filter
          fun t => ¬(i.step s).value.2.Ends t.1 steps := by
      apply List.filter_congr
      intro t hm
      have hle := le_of_mem_takings _ steps t hm
      have hnot : ¬(i.step s).value.1.ends t.1 = true := fun he => by
        obtain ⟨result, he⟩ := StepResult.ends_eq_true he
        exact Nat.not_lt.mpr hle (ht.lt_of_pass? hi (by rw [he]; rfl))
      simp [ends_cons_iff, hnot]
    rw [takings, ← List.append_assoc, List.filter_append, hopen, hlater, ← List.filter_append]
    exact ih (hi.step s) (h.step ht)

/-- A pass that is in flight or starts ends with the step, is dropped by it or stays in flight. -/
theorem Takes.accounted (ht : i.Takes s r)
    (hn : (i.pass? n).isSome ∨ n ∈ (i.taking s).map Prod.fst) :
    r.1.ends n = true ∨ r.1 = .abandoned n ∨ (r.2.pass? n).isSome := by
  -- A pass that the step is not about was in flight before it.
  have before (hs : ∀ t ∈ i.taking s, n ≠ t.1) : (i.pass? n).isSome :=
    hn.resolve_right fun hm => by
      obtain ⟨t, ht, he⟩ := List.mem_map.mp hm
      exact hs t ht he.symm
  cases ht with
  | call c => exact .inr (.inr (before nofun))
  | empty hg hl =>
    by_cases hm : n = i.streamsEnded
    · exact .inl (decide_eq_true hm.symm)
    · rw [pass?_land_of_ne hm]
      refine .inr (.inr (before fun t ht => ?_))
      rw [List.mem_singleton.mp ht]
      exact hm
  | start ho =>
    rw [pass?_hold]
    by_cases hm : n = i.streamsEnded
    · rw [if_pos hm]
      exact .inr (.inr rfl)
    · rw [if_neg hm]
      refine .inr (.inr (before fun t ht => ?_))
      rw [List.mem_singleton.mp ht]
      exact hm
  | proceed m a p p' hp hr =>
    rw [pass?_hold]
    by_cases hm : n = m
    · rw [if_pos hm]
      exact .inr (.inr rfl)
    · rw [if_neg hm]
      exact .inr (.inr (before nofun))
  | finish m a p plan lanes hp hr =>
    by_cases hm : n = m
    · exact .inl (decide_eq_true hm.symm)
    · rw [pass?_land_of_ne hm]
      exact .inr (.inr (before nofun))
  | discard m a p gops hp hr =>
    by_cases hm : n = m
    · exact .inl (decide_eq_true hm.symm)
    · rw [pass?_land_of_ne hm]
      exact .inr (.inr (before nofun))
  | drop m p hp =>
    by_cases hm : n = m
    · exact .inr (.inl (congrArg _ hm.symm))
    · rw [pass?_land_of_ne hm]
      exact .inr (.inr (before nofun))
  | void s m hs hp =>
    refine .inr (.inr (before fun t ht => ?_))
    cases s with
    | endStream => cases hs
    | _ => cases ht

/-- A pass that is in flight, or starts in a run, ends in it or is dropped in it or is in flight
after it. -/
theorem accounted_after (i : Interleaving) (steps : List Step)
    (hn : (i.pass? n).isSome ∨ n ∈ (i.takings steps).map Prod.fst) :
    i.Ends n steps ∨ .abandoned n ∈ i.shown steps ∨ ((i.after steps).pass? n).isSome := by
  induction steps generalizing i with
  | nil => exact .inr (.inr (hn.resolve_right List.not_mem_nil))
  | cons s steps ih =>
    rw [ends_cons_iff, shown_cons]
    have later (hn : ((i.step s).value.2.pass? n).isSome ∨
        n ∈ ((i.step s).value.2.takings steps).map Prod.fst) :
        ((i.step s).value.1.ends n = true ∨ (i.step s).value.2.Ends n steps) ∨
          .abandoned n ∈ (i.step s).value.1 :: (i.step s).value.2.shown steps ∨
          ((i.after (s :: steps)).pass? n).isSome := by
      rcases ih (i.step s).value.2 hn with he | ha | hp
      · exact .inl (.inr he)
      · exact .inr (.inl (List.mem_cons_of_mem _ ha))
      · exact .inr (.inr hp)
    have now : (i.pass? n).isSome ∨ n ∈ (i.taking s).map Prod.fst ∨
        n ∈ ((i.step s).value.2.takings steps).map Prod.fst := by
      rw [takings, List.map_append, List.mem_append] at hn
      exact hn
    rcases or_assoc.mpr now with hnow | hlater
    · rcases (i.takes_step s).accounted hnow with he | ha | hp
      · exact .inl (.inl he)
      · exact .inr (.inl (List.mem_cons.mpr (.inl ha.symm)))
      · exact later (.inl hp)
    · exact later (.inr hlater)

/-- After every run the units taken in are those pushed, dropped, buffered and outstanding. So no
count of units in flight is cut off at zero, and with no pass in flight and none abandoned it
tells what is buffered. -/
theorem units_conserved (config : Config) (steps : List Step) :
    let i := (fresh config).after steps
    let counters := i.fanout.counters
    let buffered := i.fanout.grouping.openLength + Gop.unitCount i.fanout.grouping.closed.toList
    counters.unitsIngested = counters.unitsPushed + counters.unitsDropped + buffered +
        total ((fresh config).outstanding steps) ∧
      counters.unitsPushed ≤ counters.unitsIngested ∧
      counters.unitsDropped ≤ counters.unitsIngested - counters.unitsPushed ∧
      (i.inFlight = [] → (∀ n, .abandoned n ∉ (fresh config).shown steps) →
        counters.unitsInFlight = buffered) := by
  intro i counters buffered
  have hs := sound_fresh config
  have hfresh : (fresh config).Ledger [] := by
    refine ⟨rfl, List.nodup_nil, nofun, ?_, [], Grouping.groups_empty⟩
    intro n p hp
    cases hp
  have hl := hfresh.after hs steps
  have hb : counters.unitsIngested = counters.unitsPushed + counters.unitsDropped + buffered +
      total ((fresh config).outstanding steps) := by
    rw [show buffered = Gop.unitCount i.fanout.grouping.groups from
      i.fanout.grouping.unitCount_groups.symm]
    exact hl.balance
  refine ⟨hb, by omega, by omega, fun hf ha => ?_⟩
  have hnone : (fresh config).outstanding steps = [] := by
    unfold outstanding
    apply List.filter_eq_nil_iff.mpr
    intro t ht
    rcases accounted_after _ steps (.inr (List.mem_map_of_mem ht)) with he | he | he
    · simpa using he
    · exact absurd he (ha t.1)
    · change (i.pass? t.1).isSome at he
      rw [pass?, hf] at he
      cases he
  rw [hnone] at hb
  unfold Counters.unitsInFlight
  change counters.unitsIngested = _ + _ + buffered + 0 at hb
  omega

end StreamFanout.Interleaving
