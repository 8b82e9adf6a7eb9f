import StreamFanout.Proofs.Interleaving.Handovers

/-!
What becomes of each unit, by its number and not only by count. Passes may overlap and share their
channels: still no unit is handed to the sink twice, and none by a pass that did not take it.
-/
namespace StreamFanout.Interleaving

variable {config : Config} {steps : List Step}

/-- Two handovers have different numbers, if each has the number that its place gives it. -/
theorem number_ne {t t' : Intake} {b b' : Block} {j k : Nat} {e e' : Handover} (hjk : j < k)
    (he : ((fresh config).handovers steps)[j]? = some e)
    (ht : ((fresh config).intakes 0 steps)[e.pass]? = some t)
    (ht' : ((fresh config).intakes 0 steps)[e'.pass]? = some t')
    (hb : b ∈ t.blocks) (hb' : b' ∈ t'.blocks) (hc : b.channel = e.channel)
    (hc' : b'.channel = e'.channel) {r r' : Nat}
    (hr : r = e.rank (((fresh config).handovers steps).take j))
    (hr' : r' = e'.rank (((fresh config).handovers steps).take k))
    (hlt : t.firstOf b + r < t.stopOf b) (hlt' : t'.firstOf b' + r' < t'.stopOf b') :
    t.firstOf b + r ≠ t'.firstOf b' + r' := by
  have hstop := t.stopOf_le_stop b
  have hstop' := t'.stopOf_le_stop b'
  have hfirst := t.first_le_firstOf b
  have hfirst' := t'.first_le_firstOf b'
  rcases Nat.lt_trichotomy e.pass e'.pass with hp | hp | hp
  · have hle := stop_le_first (fresh config) 0 steps hp ht ht'
    omega
  · rw [← hp] at ht'
    cases ht.symm.trans ht'
    by_cases hbb : b = b'
    · subst hbb
      have hlane : e.lane = e'.lane := Prod.ext hp (hc.symm.trans hc')
      have hrank := Handover.rank_lt he hlane hjk
      omega
    · have happ := Intake.apart hb hb' hbb
      omega
  · have hle := stop_le_first (fresh config) 0 steps hp ht' ht
    omega

/-- A pass that ends without an error has handed over as many units of each of its blocks as there
are, and each of its pushes was accepted. -/
theorem whole_of_ok {n : Nat} {report : Report}
    (hm : .ended n (.ok report) ∈ (fresh config).shown steps) :
    ∃ t, ((fresh config).intakes 0 steps)[n]? = some t ∧ t.channels ≠ [] ∧
      (∀ b ∈ t.blocks, Gop.unitCount (b.share t.gops) ≤
        (((fresh config).handovers steps).filter (·.lane = (n, b.channel))).length) ∧
      ∀ (k : Nat) c u, ((fresh config).calls n steps)[k]? = some (.push c u) →
        ((fresh config).answers n steps)[k]? = some .accepted := by
  have hs := sound_fresh config
  obtain ⟨before, during, t, rfl, rfl, ht, hgops, hchannels, hblocks⟩ :=
    exists_intake (lt_of_mem_shown hs hm rfl)
  have hi := hs.after before
  obtain ⟨hl, hall⟩ := deliveredOn_of_ok hi (shown_of_stream hm rfl)
  rw [← hblocks, ← hgops] at hall
  rw [← hchannels] at hl
  refine ⟨t, ht, hl, fun b hb => ?_, fun k c u hk => ?_⟩
  · rw [← Gop.length_flatten, ← hall b hb, ← List.length_map Handover.unit, ← sentOn_calls,
      calls_of_stream]
    exact length_deliveredOn_le _ _ _
  · rw [calls_of_stream] at hk
    rw [answers_of_stream]
    have hu : u ∈ sentOn c (((fresh config).after before).calls
        ((fresh config).after before).streamsEnded (.endStream :: during)) :=
      List.mem_filterMap.mpr ⟨_, List.mem_of_getElem? hk, if_pos rfl⟩
    have hc : c ∈ t.channels := hchannels ▸ mem_live_of_sentOn hi (List.ne_nil_of_mem hu)
    rw [← Partition.map_channel_blocksOf t.gops.length t.channels] at hc
    obtain ⟨b, hb, rfl⟩ := List.mem_map.mp hc
    refine accepted_of_length_le ?_ hk
    rw [hall b hb, hgops]
    exact (sentOn_prefix_share hi during (hblocks ▸ hb)).length_le

/-- The units that were accepted are numbered in order of arrival. Each end of stream takes the
next interval of numbers, up to the last unit that had arrived; a unit is handed to the sink at
most once in a run, by the pass that took it and on the channel of the block that it is in; and a
pass that ends without an error has handed over all that it took, and all of it was accepted. -/
theorem units_have_one_fate (config : Config) (steps : List Step) :
    let start := fresh config
    let units := (arrivals steps).map AccessUnit.marked
    let taken := start.intakes 0 steps
    let handed := start.handovers steps
    (∀ (k : Nat) t, taken[k]? = some t → t.first = sumOf Intake.size (taken.take k)) ∧
      (∀ before during, steps = before ++ .endStream :: during →
        let i := start.after before
        ∃ t, taken[i.streamsEnded]? = some t ∧
          t.gops = i.fanout.grouping.groups ∧ t.channels = i.fanout.live ∧
          t.stop = (arrivals before).length ∧
          Gop.flatten t.gops = (units.drop t.first).take t.size) ∧
      ∃ number : Nat → Nat,
        (∀ (k : Nat) e, handed[k]? = some e → ∃ t b, taken[e.pass]? = some t ∧
          b ∈ t.blocks ∧ b.channel = e.channel ∧
          t.firstOf b ≤ number k ∧ number k < t.stopOf b ∧ t.stopOf b ≤ t.stop ∧
          units[number k]? = some e.unit) ∧
        (∀ j k, j < k → k < handed.length → number j ≠ number k) ∧
        ∀ (n : Nat) (report : Report), .ended n (.ok report) ∈ start.shown steps →
          ∃ t, taken[n]? = some t ∧
            (∀ m, t.first ≤ m → m < t.stop →
              ∃ (k : Nat) (e : Handover), handed[k]? = some e ∧ e.pass = n ∧ number k = m) ∧
            ∀ (k : Nat) c u, (start.calls n steps)[k]? = some (SinkCall.push c u) →
              (start.answers n steps)[k]? = some .accepted := by
  intro start units taken handed
  have hs := sound_fresh config
  refine ⟨fun k t ht => ?_, ?_, ?_⟩
  · rw [first_intakes start 0 steps ht, Nat.zero_add]
  · rintro before during rfl
    have ht := intakes_endStream config before during
    obtain ⟨hstop, hunits⟩ := intake_units config before during ht
    exact ⟨_, ht, rfl, rfl, hstop, by rw [hunits, List.map_take, List.map_drop]⟩
  · -- A unit is found by its block and by how many were handed over before it on this channel.
    have hplace : ∀ k : Nat, ∃ m : Nat, ∀ e, handed[k]? = some e → ∃ t b,
        taken[e.pass]? = some t ∧ b ∈ t.blocks ∧ b.channel = e.channel ∧
        m = t.firstOf b + e.rank (handed.take k) ∧ m < t.stopOf b ∧ units[m]? = some e.unit := by
      intro k
      cases he : handed[k]? with
      | none => exact ⟨0, nofun⟩
      | some e =>
        obtain ⟨t, b, ht, hb, hc, hlt, hunit⟩ := handover_place he
        refine ⟨t.firstOf b + e.rank (handed.take k), fun e' he' => ?_⟩
        cases he'
        exact ⟨t, b, ht, hb, hc, rfl, Nat.add_lt_add_left hlt _, hunit⟩
    choose number hnumber using hplace
    refine ⟨number, fun k e he => ?_, fun j k hjk hk => ?_, fun n report hm => ?_⟩
    · obtain ⟨t, b, ht, hb, hc, hm, hlt, hunit⟩ := hnumber k e he
      refine ⟨t, b, ht, hb, hc, ?_, hlt, t.stopOf_le_stop b, hunit⟩
      rw [hm]
      exact Nat.le_add_right _ _
    · have hj := Nat.lt_trans hjk hk
      obtain ⟨t, b, ht, hb, hc, hm, hlt, -⟩ :=
        hnumber j handed[j] (List.getElem?_eq_getElem hj)
      obtain ⟨t', b', ht', hb', hc', hm', hlt', -⟩ :=
        hnumber k handed[k] (List.getElem?_eq_getElem hk)
      rw [hm] at hlt ⊢
      rw [hm'] at hlt' ⊢
      exact number_ne hjk (List.getElem?_eq_getElem hj) ht ht' hb hb' hc hc' rfl rfl hlt hlt'
    · obtain ⟨t, ht, hl, hwhole, haccepted⟩ := whole_of_ok hm
      refine ⟨t, ht, fun m hlo hhi => ?_, haccepted⟩
      obtain ⟨b, hb, hlo, hhi⟩ := t.exists_block hl hlo hhi
      have hr : m - t.firstOf b < (handed.filter (·.lane = (n, b.channel))).length := by
        refine Nat.lt_of_lt_of_le ?_ (hwhole b hb)
        rw [Intake.stopOf] at hhi
        omega
      obtain ⟨k, e, he, hlane, hrank⟩ := Handover.exists_rank hr
      obtain ⟨t', b', ht', hb', hc', hm, -⟩ := hnumber k e he
      obtain ⟨rfl, hchannel⟩ := Prod.ext_iff.mp hlane
      cases ht.symm.trans ht'
      cases Intake.eq_of_channel_eq (nodup_channels ht) hb hb' (hchannel.symm.trans hc'.symm)
      refine ⟨k, e, he, rfl, ?_⟩
      rw [hm, hrank]
      omega

end StreamFanout.Interleaving
