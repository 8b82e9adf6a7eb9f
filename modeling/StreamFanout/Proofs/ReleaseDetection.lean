import StreamFanout.Proofs.Interleaving.Outstanding

/-!
What a pass makes of a channel that is released under way. The pass looks the channel up when its
next group would begin: if it is not live then, the groups that had not begun are never pushed,
they are counted as dropped, and the channel is named in the result. A channel that is live again
by then is not found to have been away.
-/
namespace StreamFanout.Interleaving

/-- The groups of `c` that the `n`-th pass has not begun, while it is in flight. -/
def unbegun (i : Interleaving) (n : Nat) (c : Channel) : List Gop :=
  (i.pass? n).elim [] (Pass.unbegun c)

variable {i : Interleaving} {n : Nat} {p : Pass} {c : Channel}

theorem unbegun_of_pass (h : i.pass? n = some p) : i.unbegun n c = p.unbegun c := by
  rw [unbegun, h]
  rfl

theorem unbegun_of_none (h : i.pass? n = none) : i.unbegun n c = [] := by
  rw [unbegun, h]
  rfl

/-- A pass that ends has left a stop at which the groups of a channel changed, if there were any to
begin. -/
theorem exists_turn (h : i.Sound) (hp : i.pass? n = some p) (hu : p.unbegun c ≠ [])
    {steps : List Step} (he : i.Ends n steps) :
    ∃ xs a ys, steps = xs ++ .resume n a :: ys ∧ (i.after xs).unbegun n c = p.unbegun c ∧
      ((i.after xs).step (.resume n a)).value.2.unbegun n c ≠ p.unbegun c := by
  induction steps generalizing i p with
  | nil => exact absurd he (i.not_ends_nil n)
  | cons s steps ih =>
    have hn := h.number_lt n p hp
    have ht := i.takes_step s
    have h' := h.step s
    by_cases hs : s.pass? = some n
    · rcases step_of_pass hp hs with ⟨a, p', rfl, -, hstep⟩ | ⟨hgone, hend⟩
      · have hp' : (i.step (.resume n a)).value.2.pass? n = some p' := by
          rw [hstep, pass?_hold_self]
        by_cases hsame : p'.unbegun c = p.unbegun c
        · have he' := (ends_cons (by rw [hstep]; exact nofun)).mp he
          obtain ⟨xs, b, ys, rfl, hxs, hturn⟩ := ih h' hp' (hsame ▸ hu) he'
          exact ⟨.resume n a :: xs, b, ys, rfl, hxs.trans hsame, hsame ▸ hturn⟩
        · have hturn : (i.step (.resume n a)).value.2.unbegun n c ≠ p.unbegun c := by
            rwa [unbegun_of_pass hp']
          exact ⟨[], a, steps, rfl, unbegun_of_pass hp, hturn⟩
      · have hnone : (i.step s).value.2.unbegun n c ≠ p.unbegun c := by
          rw [unbegun_of_none hgone]
          exact hu.symm
        rcases hend with ⟨a, result, rfl, -, -⟩ | ⟨-, habandoned⟩
        · exact ⟨[], a, steps, rfl, unbegun_of_pass hp, hnone⟩
        · have he' := (ends_cons (by rw [habandoned]; exact nofun)).mp he
          exact absurd he' (unseen (Nat.lt_of_lt_of_le hn ht.streamsEnded_le) hgone steps).2.2.1
    · obtain ⟨xs, a, ys, rfl, hxs, hturn⟩ := ih h' ((ht.other hn hs).2.trans hp) hu
        ((cons_other hn hs steps).2.2.mp he)
      exact ⟨s :: xs, a, ys, rfl, hxs, hturn⟩

/-- The unit that stands first of those under way is the one that the pass calls with. -/
theorem call?_of_underway {q : Pass} {u : AccessUnit} {us : List AccessUnit}
    (h : q.underway c = u :: us) : q.call? = some (.push c u) := by
  cases q with
  | pushing plan served lane unit rest upcoming round =>
    have h : (if lane.channel = c then unit :: rest else []) = u :: us := h
    split at h
    · next hc =>
      cases h
      rw [← hc]
      rfl
    · cases h
  | _ => cases h

/-- What a pass has of the groups of a channel at its next stop, and what is seen of it. -/
theorem step_resume (h : i.Sound) (hp : i.pass? n = some p)
    (hd : (p.blocks.map Block.channel).Nodup) (hq : p.InStep) (a : Answer) (c : Channel) :
    let r := (p.resume i.fanout.roster.contains i.fanout.config.silent a).value
    (i.step (.resume n a)).value.2.unbegun n c = r.unbegun c ∧
      (∀ u us, r.underway c = u :: us →
        (i.step (.resume n a)).value.1 = .waiting n (some (.push c u))) ∧
      (r.outstanding c = [] → ∀ ys, sentOn c (i.calls n (.resume n a :: ys)) = []) := by
  intro r
  have hn := h.number_lt n p hp
  have h' := h.step (.resume n a)
  have hn' := Nat.lt_of_lt_of_le hn (i.takes_step (.resume n a)).streamsEnded_le
  have hstep' := Pass.inStep_resume i.fanout.roster.contains i.fanout.config.silent hq a
  have hblocks := Pass.blocks_resume i.fanout.roster.contains i.fanout.config.silent p a
  rcases step_of_pass hp (s := .resume n a) rfl with ⟨b, p', hs, hr, hstep⟩ | ⟨hgone, hend⟩
  · cases hs
    have hp' : (i.step (.resume n a)).value.2.pass? n = some p' := by
      rw [hstep, pass?_hold_self]
    rw [hr] at hblocks
    rw [show r = .waiting p' from hr]
    refine ⟨unbegun_of_pass hp', fun u us hu => ?_, fun hnil ys => ?_⟩
    · rw [hstep, call?_of_underway hu]
    · obtain ⟨hcall, hnone⟩ := Pass.remainder_eq_nil (p := p') hnil
      have hpre := (outstanding_after h' hp' (by rwa [show p'.blocks = p.blocks from hblocks])
        c ys).1
      rw [hnone, List.prefix_nil] at hpre
      rw [calls_cons, sentOn_append, hpre, hstep, StepResult.call?_waiting, sentOn_call?, hcall]
      rfl
  · -- A pass is over only when no lane has a group left.
    have gone (hnil : r.unbegun c = []) (hnone : r.underway c = [])
        (hshown : (i.step (.resume n a)).value.1.call? n = none) :
        (i.step (.resume n a)).value.2.unbegun n c = r.unbegun c ∧
          (∀ u us, r.underway c = u :: us →
            (i.step (.resume n a)).value.1 = .waiting n (some (.push c u))) ∧
          (r.outstanding c = [] → ∀ ys, sentOn c (i.calls n (.resume n a :: ys)) = []) := by
      refine ⟨(unbegun_of_none hgone).trans hnil.symm, fun u us hu => ?_, fun _ ys => ?_⟩
      · cases hnone.symm.trans hu
      · rw [calls_cons, hshown, (unseen hn' hgone ys).1]
        rfl
    rcases hend with ⟨b, result, hs, he, hover⟩ | ⟨hs, -⟩
    · cases hs
      have hshown : (i.step (.resume n a)).value.1.call? n = none := by rw [he]; rfl
      rcases hover with ⟨plan, lanes, hr, -⟩ | ⟨gops, hr, -⟩
      · rw [hr] at hstep'
        refine gone ?_ ?_ hshown
        · rw [show r = .finished plan lanes from hr]
          exact Lane.Drained.queueOn_eq hstep'.2 c
        · rw [show r = .finished plan lanes from hr]
          rfl
      · refine gone ?_ ?_ hshown
        · rw [show r = .discarded gops from hr]
          rfl
        · rw [show r = .discarded gops from hr]
          rfl
    · cases hs

/-- Where the groups of a channel change, the next group begins or the channel is given up. -/
theorem turn_cases (h : i.Sound) (hp : i.pass? n = some p)
    (hd : (p.blocks.map Block.channel).Nodup) (hq : p.InStep) {a : Answer}
    (hturn : (i.step (.resume n a)).value.2.unbegun n c ≠ p.unbegun c) :
    ((∃ number, p.turn? = some (c, number)) ∧ c ∈ i.fanout.live ∧
        ∃ g, (i.step (.resume n a)).value.1 = .waiting n (some (.push c g.first)) ∧
          p.unbegun c = g :: (i.step (.resume n a)).value.2.unbegun n c) ∨
      (((∃ number, p.turn? = some (c, number)) ∧ c ∉ i.fanout.live ∨
          p.underway c ≠ [] ∧ a ≠ .accepted) ∧
        ∀ ys, sentOn c (i.calls n (.resume n a :: ys)) = []) := by
  obtain ⟨hunbegun, hcall, hsent⟩ := step_resume h hp hd hq a c
  have hlanes : (p.lanes.map Lane.channel).Nodup := by rwa [Pass.channels_eq_blocks]
  rw [hunbegun] at hturn ⊢
  have given (hu : (p.resume i.fanout.roster.contains i.fanout.config.silent a).value.underway
      c = []) (hg : (p.resume i.fanout.roster.contains i.fanout.config.silent a).value.unbegun
      c = []) := hsent (by rw [Progress.outstanding, hu, hg]; rfl)
  cases Pass.leaves_resume i.fanout.config.silent i.fanout.roster.contains c hlanes a with
  | waits _ _ _ hg => exact absurd hg hturn
  | begins ht hl _ hu hg =>
    exact .inl ⟨⟨_, ht⟩, Roster.contains_iff.mp hl, _, hcall _ _ hu, hg⟩
  | lost ht hl _ hu hg =>
    have haway : c ∉ i.fanout.live := fun hc => by
      rw [Roster.contains_iff.mpr hc] at hl
      cases hl
    exact .inr ⟨.inl ⟨⟨_, ht⟩, haway⟩, given hu hg⟩
  | proceeds _ _ hg => exact absurd hg hturn
  | givenUp ha hne hu hg => exact .inr ⟨.inr ⟨hne, ha⟩, given hu hg⟩

/-- The units that a pass sends no more on a channel are counted as dropped, and the channel is
named. -/
theorem loss_reported (h : i.Sound) {during later : List Step}
    (hp : (i.after (.endStream :: during)).pass? i.streamsEnded = some p) (hu : p.unbegun c ≠ [])
    (hsent : sentOn c ((i.after (.endStream :: during)).calls i.streamsEnded later) <+:
      (p.underway c).tail) {s : Step} {result : Except FanoutError Report}
    (he : ((i.after (.endStream :: (during ++ later))).step s).value.1 =
      .ended i.streamsEnded result) :
    ∃ channels lost, result = .error (.pushFailed channels) ∧ c ∈ channels ∧
      Gop.unitCount (p.unbegun c) ≤ lost ∧
      (delivered (i.calls i.streamsEnded (.endStream :: (during ++ later) ++ [s]))
        (i.answers i.streamsEnded (.endStream :: (during ++ later) ++ [s]))).length + lost =
          Gop.unitCount i.fanout.grouping.groups ∧
      ((i.after (.endStream :: (during ++ later))).step s).value.2.fanout.counters.unitsDropped =
        (i.after (.endStream :: (during ++ later))).fanout.counters.unitsDropped + lost := by
  have hflat : Gop.flatten (p.unbegun c) ≠ [] := Gop.flatten_ne_nil hu
  have hne : p.outstanding c ≠ [] := fun hnil => hflat (List.append_eq_nil_iff.mp hnil).2
  have hpos := List.length_pos_iff.mpr hflat
  obtain ⟨hg, hl, b, hb, rfl, hsum⟩ := outstanding_endStream h hp hne
  obtain ⟨lanes, hsettled, rfl, hfanout⟩ := settles_of_ended h hg hl (during ++ later) he
  have hcalls : i.calls i.streamsEnded (.endStream :: (during ++ later) ++ [s]) =
      i.calls i.streamsEnded (.endStream :: during) ++
        (i.after (.endStream :: during)).calls i.streamsEnded later := by
    rw [calls_append, calls_cons _ _ s, he, ← List.cons_append, calls_append]
    exact List.append_nil _
  have hle := length_deliveredOn_le b.channel
    (i.calls i.streamsEnded (.endStream :: (during ++ later) ++ [s]))
    (i.answers i.streamsEnded (.endStream :: (during ++ later) ++ [s]))
  rw [hcalls, sentOn_append, List.length_append, ← hcalls] at hle
  have hlen := hsent.length_le
  have htotal := congrArg List.length hsum
  rw [Pass.remainder, List.length_append, List.length_append, Gop.length_flatten,
    Gop.length_flatten] at htotal
  rw [Gop.length_flatten] at hpos
  obtain ⟨hmem, hlost⟩ := hsettled.shortfall hb hpos (by omega)
  refine ⟨_, _, ?_, hmem, hlost, hsettled.pushed_add_dropped (Fanout.contiguous_blocks hl), ?_⟩
  · rw [Fanout.book_result, if_neg (List.ne_nil_of_mem hmem)]
  · rw [hfanout]
    rfl

theorem step_release (i : Interleaving) (c : Channel) :
    (i.step (.call (.release c))).value = (.called (.released (i.fanout.release c).value.1),
      { i with fanout := (i.fanout.release c).value.2 }) := rfl

theorem notMem_live_of_release (hr : (i.fanout.release c).value.1 = true) :
    c ∉ (i.step (.call (.release c))).value.2.fanout.live := by
  rw [step_release]
  by_cases hc : i.fanout.roster.contains c = true
  · have hrelease : (i.fanout.release c).value =
        (true, { i.fanout with roster := i.fanout.roster.unregister c }) := by
      rw [Fanout.release, if_pos hc]
      rfl
    rw [hrelease]
    exact fun hm => of_decide_eq_true (List.mem_filter.mp hm).2 rfl
  · rw [Fanout.release, if_neg hc] at hr
    cases hr

/-- What becomes of the groups of a channel that had not begun when it was released is decided at
the next turn of the channel in the pass, and a pass that ends has come to it. If the channel is not
live when it is looked up there, or the sink refuses a unit on it before, then none of those groups
is pushed, all of their units are counted as dropped and the result names the channel. If it is live
again, the next group begins and the release goes unnoticed. -/
theorem release_decided_at_turn (config : Config) (before during : List Step) (c : Channel)
    (p : Pass) :
    let i := (fresh config).after before
    let n := i.streamsEnded
    let j := i.after (.endStream :: during)
    let k := j.after [.call (.release c)]
    j.pass? n = some p → p.unbegun c ≠ [] → (j.fanout.release c).value.1 = true →
      c ∉ k.fanout.live ∧
      (∀ later, k.Ends n later → ∃ xs a ys, later = xs ++ .resume n a :: ys ∧
        (k.after xs).unbegun n c = p.unbegun c ∧
        ((k.after xs).step (.resume n a)).value.2.unbegun n c ≠ p.unbegun c) ∧
      ∀ xs q a, (k.after xs).pass? n = some q → q.unbegun c = p.unbegun c →
        let turn := ((k.after xs).step (.resume n a)).value
        turn.2.unbegun n c ≠ p.unbegun c →
          ((∃ number, q.turn? = some (c, number)) ∧ c ∈ (k.after xs).fanout.live ∧
            ∃ g, turn.1 = .waiting n (some (.push c g.first)) ∧
              p.unbegun c = g :: turn.2.unbegun n c) ∨
          (((∃ number, q.turn? = some (c, number)) ∧ c ∉ (k.after xs).fanout.live ∨
              q.underway c ≠ [] ∧ a ≠ .accepted) ∧ ∀ ys,
            let later := xs ++ .resume n a :: ys
            let run := .endStream :: (during ++ .call (.release c) :: later)
            sentOn c (k.calls n later) <+: (p.underway c).tail ∧
            ∀ s result, ((i.after run).step s).value.1 = .ended n result →
              ∃ channels lost, result = .error (.pushFailed channels) ∧ c ∈ channels ∧
                Gop.unitCount (p.unbegun c) ≤ lost ∧
                (delivered (i.calls n (run ++ [s])) (i.answers n (run ++ [s]))).length + lost =
                  Gop.unitCount i.fanout.grouping.groups ∧
                ((i.after run).step s).value.2.fanout.counters.unitsDropped =
                  (i.after run).fanout.counters.unitsDropped + lost) := by
  intro i n j k hp hu hr
  have h : i.Sound := (sound_fresh config).after before
  have hj : j.Sound := h.after (.endStream :: during)
  have hk : k.Sound := hj.step _
  have hpk : k.pass? n = some p :=
    ((j.takes_step _).other (i.lt_streamsEnded during) fun he => by cases he).2.trans hp
  have outstanding {q : Pass} (hq : q.unbegun c ≠ []) : q.outstanding c ≠ [] := fun hnil =>
    Gop.flatten_ne_nil hq (List.append_eq_nil_iff.mp hnil).2
  obtain ⟨hg, hl, -⟩ := outstanding_endStream h hp (outstanding hu)
  have hblocks : (i.fanout.plan.blocks.map Block.channel).Nodup := Fanout.nodup_blocks h.live_nodup
  refine ⟨notMem_live_of_release hr, fun later he => exists_turn hk hpk hu he, ?_⟩
  intro xs q a hq hsame turn hturn
  have hafter (zs : List Step) :
      i.after (.endStream :: (during ++ .call (.release c) :: zs)) = k.after zs := by
    rw [← List.cons_append, after_append]
    rfl
  have hpfollows := follows_endStream h hg hl during hp
  have hqfollows := follows_endStream h hg hl (during ++ .call (.release c) :: xs) (q := q)
    (by rw [hafter]; exact hq)
  have hpblocks : p.blocks = i.fanout.plan.blocks := hpfollows.blocks_eq
  have hqblocks : q.blocks = i.fanout.plan.blocks := hqfollows.blocks_eq
  rcases turn_cases (hk.after xs) hq (by rwa [hqblocks]) hqfollows.inStep (hsame ▸ hturn) with
    ⟨ha, hlive, g, hcall, hgroups⟩ | ⟨ha, hsent⟩
  · exact .inl ⟨ha, hlive, g, hcall, hsame.symm.trans hgroups⟩
  refine .inr ⟨ha, fun ys => ?_⟩
  intro later run
  obtain ⟨-, heq⟩ := (outstanding_after hk hpk (by rwa [hpblocks]) c xs).2 q hq
    (outstanding (hsame ▸ hu))
  rw [Pass.remainder, Pass.remainder, hsame, ← List.append_assoc] at heq
  have hxs : sentOn c (k.calls n xs) ++ (q.underway c).tail = (p.underway c).tail :=
    List.append_cancel_right heq
  have hlater : sentOn c (k.calls n later) <+: (p.underway c).tail := by
    rw [calls_append, sentOn_append, hsent ys, List.append_nil, ← hxs]
    exact List.prefix_append _ _
  have hrelease : j.calls n (.call (.release c) :: later) = k.calls n later := by
    rw [calls_cons, step_release]
    rfl
  exact ⟨hlater, fun s result he => loss_reported h hp hu (hrelease ▸ hlater) he⟩

/-- A channel is released between its two groups and stays away. -/
theorem release_decided_at_turn_absent :
    let frame (pts : UInt64) : AccessUnit := { pts, payload := ⟨#[1]⟩, isKeyframe := true }
    let before : List Step := [.call (.request (some ⟨0⟩)), .call (.arriveAll [frame 0, frame 1])]
    let p : Pass := .pushing ⟨[⟨⟨0⟩, 0, 2⟩], 0⟩ []
      { block := ⟨⟨0⟩, 0, 2⟩, queue := [⟨(frame 1).marked, #[]⟩] } (frame 0).marked [] []
    let i := (fresh {}).after before
    let j := i.after [.endStream, .resume 0]
    let k := j.after [.call (.release ⟨0⟩)]
    let later : List Step := [.resume 0, .resume 0, .resume 0]
    j.pass? 0 = some p ∧ p.unbegun ⟨0⟩ ≠ [] ∧ (j.fanout.release ⟨0⟩).value.1 = true ∧
      sentOn ⟨0⟩ (k.calls 0 later) = [] ∧
      ∃ channels, ((k.after later).step (.resume 0)).value.1 =
        .ended 0 (.error (.pushFailed channels)) ∧ ⟨0⟩ ∈ channels := by
  intro frame before p
  let q : Pass := .looking ⟨[⟨⟨0⟩, 0, 2⟩], 0⟩ [] { block := ⟨⟨0⟩, 0, 2⟩, queue := [], pushed := 1 }
    ⟨(frame 1).marked, #[]⟩ [] 1
  have hdecided := release_decided_at_turn {} before [.resume 0] ⟨0⟩ p
  -- The state is kept closed, for the run is not to be evaluated again.
  obtain ⟨i, hi⟩ : ∃ i, i = (fresh {}).after before := ⟨_, rfl⟩
  have hn : i.streamsEnded = 0 := by
    rw [hi]
    decide +kernel
  dsimp only at hdecided ⊢
  rw [← hi, hn] at hdecided
  rw [← hi]
  obtain ⟨j, hj⟩ : ∃ j, j = i.after [.endStream, .resume 0] := ⟨_, rfl⟩
  rw [← hj] at hdecided ⊢
  obtain ⟨k, hk⟩ : ∃ k, k = j.after [.call (.release ⟨0⟩)] := ⟨_, rfl⟩
  rw [← hk] at hdecided ⊢
  have hp : j.pass? 0 = some p := by
    rw [hj, hi]
    decide +kernel
  have hr : (j.fanout.release ⟨0⟩).value.1 = true := by
    rw [hj, hi]
    decide +kernel
  have hq : (k.after [.resume 0]).pass? 0 = some q := by
    rw [hk, hj, hi]
    decide +kernel
  have hturn : ((k.after [.resume 0]).step (.resume 0)).value.2.unbegun 0 ⟨0⟩ ≠ p.unbegun ⟨0⟩ := by
    rw [hk, hj, hi]
    decide +kernel
  have haway : ⟨0⟩ ∉ (k.after [.resume 0]).fanout.live := by
    rw [hk, hj, hi]
    decide +kernel
  have hends : ((k.after [.resume 0, .resume 0, .resume 0]).step (.resume 0)).value.1.ends 0 =
      true := by
    rw [hk, hj, hi]
    decide +kernel
  have hu : p.unbegun ⟨0⟩ ≠ [] := by decide +kernel
  have hrun : i.after (.endStream :: ([.resume 0] ++
      .call (.release ⟨0⟩) :: ([.resume 0] ++ .resume 0 .accepted :: [.resume 0]))) =
      k.after [.resume 0, .resume 0, .resume 0] := by
    rw [hk, hj, ← after_append, ← after_append]
    simp only [List.cons_append, List.nil_append]
  obtain ⟨result, hend⟩ := StepResult.ends_eq_true hends
  obtain ⟨-, -, hdecided⟩ := hdecided hp hu hr
  rcases hdecided [.resume 0] q .accepted hq rfl hturn with ⟨-, hlive, -⟩ | ⟨-, hlost⟩
  · exact absurd hlive haway
  · obtain ⟨hsent, hreport⟩ := hlost [.resume 0]
    obtain ⟨channels, lost, rfl, hmem, -⟩ := hreport _ result (by rw [hrun]; exact hend)
    exact ⟨hp, hu, hr, List.prefix_nil.mp hsent, channels, hend, hmem⟩

/-- A channel is released between its two groups and registered again before its turn: its second
group is pushed, and the pass ends without an error. -/
theorem release_unnoticed_when_restored :
    let frame (pts : UInt64) : AccessUnit := { pts, payload := ⟨#[1]⟩, isKeyframe := true }
    let before : List Step := [.call (.request (some ⟨0⟩)), .call (.arriveAll [frame 0, frame 1])]
    let j := (fresh {}).after (before ++ [.endStream, .resume 0])
    let k := j.after [.call (.release ⟨0⟩)]
    let later : List Step := [.call (.request (some ⟨0⟩)), .resume 0, .resume 0, .resume 0,
      .resume 0]
    j.unbegun 0 ⟨0⟩ = [⟨(frame 1).marked, #[]⟩] ∧ (j.fanout.release ⟨0⟩).value.1 = true ∧
      sentOn ⟨0⟩ (k.calls 0 later) = [(frame 1).marked] ∧
      ((k.after later).step (.resume 0)).value.1 = .ended 0 (.ok ⟨[⟨⟨0⟩, 0, 2, 2⟩], 0⟩) := by
  decide +kernel

end StreamFanout.Interleaving
