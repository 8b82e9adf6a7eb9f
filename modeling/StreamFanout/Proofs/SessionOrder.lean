import StreamFanout.Proofs.Interleaving.Traffic

/-!
The order in which the channels receive the streams. Within one pass each channel is sent its units
in order of arrival and then the end of the stream. Passes are not kept apart: a stream that ends
while an earlier pass has still to call on one of the channels can be mixed into it, and this is
the only way in which the order is lost.
-/
namespace StreamFanout.Interleaving

variable {i : Interleaving} {c : Channel} {n : Nat}

/-- One pass sends some units of its stream on a channel, in order of arrival, and then the end of
the stream. -/
theorem calls_on_channel (h : i.Sound) {us : List AccessUnit}
    (hu : i.fanout.grouping.Groups us) (during : List Step) (c : Channel) :
    ∃ vs : List AccessUnit, vs.Sublist us ∧
      (i.calls i.streamsEnded (.endStream :: during)).filter (·.channel = c) <+:
        vs.map (.push c) ++ [.endOfStream c] ∧
      (i.Ends i.streamsEnded (.endStream :: during) → us ≠ [] → c ∈ i.fanout.live →
        (i.calls i.streamsEnded (.endStream :: during)).filter (·.channel = c) =
          vs.map (.push c) ++ [.endOfStream c]) := by
  by_cases hv : i.fanout.grouping.groups = [] ∨ i.fanout.live = []
  · refine ⟨[], List.nil_sublist us, ?_, fun _ hus hc => ?_⟩
    · rw [calls_endStream_vain h hv]
      exact List.nil_prefix
    · rcases hv with hg | hl
      · rw [← hu.units_eq, Grouping.units, hg] at hus
        exact absurd rfl hus
      · rw [hl] at hc
        cases hc
  · obtain ⟨hg, hl⟩ := not_or.mp hv
    let slots := schedule i.fanout.blocks i.fanout.grouping.groups
    let handed := (i.feedback during).handed [] 0 slots
    let vs := (handed.filter (·.channel = c)).map Slot.unit
    have hpart := filter_calls h.live_nodup handed c
    have hchannels : i.fanout.blocks.map Block.channel = i.fanout.live := i.fanout.channels_blocks
    have hsub : vs.Sublist ((slots.filter (·.channel = c)).map Slot.unit) :=
      (((i.feedback during).handed_sublist [] 0 slots).filter _).map _
    refine ⟨vs, hsub.trans ?_, ?_, fun he _ hc => ?_⟩
    · rw [← hu.units_eq]
      by_cases hc : c ∈ i.fanout.live
      · rw [← hchannels] at hc
        obtain ⟨b, hb, rfl⟩ := List.mem_map.mp hc
        rw [units_schedule (Fanout.contiguous_blocks hl) (hchannels ▸ h.live_nodup) hb]
        exact Gop.flatten_sublist (b.share_sublist _)
      · have hnone : slots.filter (·.channel = c) = [] := by
          apply List.filter_eq_nil_iff.mpr
          intro s hs he
          have hm := mem_channels_of_mem_schedule hs
          rw [hchannels, of_decide_eq_true he] at hm
          exact hc hm
        rw [hnone]
        exact List.nil_sublist _
    · have hfirst : (i.calls i.streamsEnded (.endStream :: during)).filter (·.channel = c) <+:
          vs.map (.push c) ++ if c ∈ i.fanout.live then [.endOfStream c] else [] := by
        rw [← hpart]
        exact (calls_endStream h hg hl during).1.filter _
      refine hfirst.trans ((List.prefix_append_right_inj _).mpr ?_)
      split
      · exact List.prefix_rfl
      · exact List.nil_prefix
    · rw [calls_of_ends h hg hl he, Pass.calls, hpart, if_pos hc]

/-- Of its `k`-th stream a run sends some units on a channel, in order of arrival. -/
theorem sentOn_stream {config : Config} {steps : List Step} {k : Nat}
    (hk : k < ((fresh config).after steps).streamsEnded) (c : Channel) :
    (sentOn c ((((fresh config).traffic c steps).filter (·.1 = k)).map Prod.snd)).Sublist
      ((endedStreams [] steps)[k]?.toList.flatMap (List.map AccessUnit.marked)) := by
  have hs := sound_fresh config
  obtain ⟨before, during, rfl, rfl, hstream⟩ := exists_endStream [] (Nat.zero_le k) hk
  obtain ⟨vs, hvs, hpart, -⟩ :=
    calls_on_channel (hs.after before) (groups_after config before) during c
  have hsent : sentOn c (vs.map (.push c) ++ [.endOfStream c]) = vs := by
    rw [sentOn_append]
    simp [sentOn, SinkCall.unitOn?, Function.comp_def]
  have hself : (endedStreams [] (before ++ .endStream :: during))[((fresh config).after
      before).streamsEnded]? = some (openStream before) := hstream
  rw [filter_traffic, calls_append, calls_before hs, List.nil_append, hself]
  have hle : (sentOn c (((((fresh config).after before).calls
      ((fresh config).after before).streamsEnded (.endStream :: during))).filter
        (·.channel = c))).Sublist vs := by
    have hp := (hpart.filterMap (SinkCall.unitOn? c)).sublist
    rw [← sentOn, ← sentOn, hsent] at hp
    exact hp
  simpa using hle.trans hvs

/-- Where the calls on a channel are in order, its units are in the order in which they arrived. -/
theorem sentOn_traffic_sublist {config : Config} {steps : List Step} {c : Channel}
    (h : InOrder ((fresh config).traffic c steps)) :
    (sentOn c (((fresh config).traffic c steps).map Prod.snd)).Sublist
      ((arrivals steps).map AccessUnit.marked) := by
  have hs := sound_fresh config
  have hlen := length_endedStreams (fresh config) [] steps
  have hflat := flatten_endedStreams [] steps
  rw [List.nil_append] at hflat
  have hparts : sentOn c (((fresh config).traffic c steps).map Prod.snd) =
      (List.range ((fresh config).after steps).streamsEnded).flatMap fun k =>
        sentOn c ((((fresh config).traffic c steps).filter (·.1 = k)).map Prod.snd) := by
    conv => lhs; rw [h.eq_flatMap (lt_of_mem_traffic hs)]
    rw [List.map_flatMap, sentOn, List.filterMap_flatMap]
    rfl
  rw [hparts, ← hflat, List.map_append]
  have hle := List.Sublist.flatMap_right (List.range ((fresh config).after steps).streamsEnded)
    fun k hk => sentOn_stream (List.mem_range.mp hk) c
  apply hle.trans
  rw [flatMap_range_getElem? _ _ (by omega), List.map_flatten, List.flatMap_def]
  exact List.sublist_append_left _ _

/-- Within a pass every channel receives units of the stream in order of arrival and then its end.
In a serial run the streams follow each other on every channel, and so do all units in the order in
which they arrived. Being serial is needed: wherever a stream with units ends while an earlier pass
has still to call on a live channel, some answers bring a call of the earlier stream after one of
the later. -/
theorem session_order (config : Config) :
    (∀ before during c, ∃ us : List AccessUnit,
        let i := (fresh config).after before
        let n := i.streamsEnded
        let run := .endStream :: during
        us.Sublist ((openStream before).map AccessUnit.marked) ∧
          (i.calls n run).filter (·.channel = c) <+: us.map (.push c) ++ [.endOfStream c] ∧
          (i.Ends n run → openStream before ≠ [] → c ∈ i.fanout.live →
            (i.calls n run).filter (·.channel = c) = us.map (.push c) ++ [.endOfStream c])) ∧
      (∀ steps c, (fresh config).Serial steps →
        InOrder ((fresh config).traffic c steps) ∧
          (sentOn c (((fresh config).traffic c steps).map Prod.snd)).Sublist
            ((arrivals steps).map AccessUnit.marked)) ∧
      ∀ before, openStream before ≠ [] → ¬((fresh config).after before).Clear →
        ∃ during c, .endStream ∉ during ∧
          ¬InOrder ((fresh config).traffic c (before ++ .endStream :: during)) := by
  have hs := sound_fresh config
  refine ⟨fun before during c => ?_, fun steps c hserial => ?_, fun before hu hc => ?_⟩
  · obtain ⟨us, hsub, hpart, hwhole⟩ :=
      calls_on_channel (hs.after before) (groups_after config before) during c
    refine ⟨us, hsub, hpart, fun he hu => hwhole he ?_⟩
    exact fun hnil => hu (List.map_eq_nil_iff.mp hnil)
  · have hq : (fresh config).Queued c [] := by
      constructor
      · exact List.Pairwise.nil
      · exact nofun
      · intro n p hp
        cases hp
      · intro m n p q hp
        cases hp
    have hord := inOrder_of_serial hs hq hserial
    exact ⟨hord, sentOn_traffic_sublist hord⟩
  · have hg : ((fresh config).after before).fanout.grouping.groups ≠ [] := by
      intro hnil
      have hunits := (groups_after config before).units_eq
      rw [Grouping.units, hnil] at hunits
      exact hu (List.map_eq_nil_iff.mp hunits.symm)
    obtain ⟨during, c, hnot, hdis⟩ := exists_disorder (hs.after before) hg hc
    refine ⟨during, c, hnot, fun hord => hdis ?_⟩
    rw [traffic_append] at hord
    exact (List.pairwise_append.mp hord).2.1

/-- A second stream ends while the pass of the first one waits: its units come between those of the
first, and the first stream ends after it. -/
theorem overlapping_streams_mixed :
    let frame (pts : UInt64) (isKeyframe : Bool) : AccessUnit :=
      { pts, payload := ⟨#[1]⟩, isKeyframe }
    let steps : List Step := [.call (.request (some ⟨0⟩)),
      .call (.arriveAll [frame 0 true, frame 1 false, frame 2 false]), .endStream,
      .resume 0, .resume 0, .call (.arrive (frame 10 true)), .endStream, .resume 1, .resume 0,
      .resume 1, .resume 0, .resume 1, .resume 0]
    (fresh {}).traffic ⟨0⟩ steps =
        [(0, .push ⟨0⟩ (frame 0 true).marked), (0, .push ⟨0⟩ (frame 1 false)),
          (1, .push ⟨0⟩ (frame 10 true).marked), (0, .push ⟨0⟩ (frame 2 false)),
          (1, .endOfStream ⟨0⟩), (0, .endOfStream ⟨0⟩)] ∧
      ¬InOrder ((fresh {}).traffic ⟨0⟩ steps) ∧
      ¬(sentOn ⟨0⟩ (((fresh {}).traffic ⟨0⟩ steps).map Prod.snd)).Sublist
        ((arrivals steps).map AccessUnit.marked) := by
  intro frame steps
  have htraffic : (fresh {}).traffic ⟨0⟩ steps =
      [(0, .push ⟨0⟩ (frame 0 true).marked), (0, .push ⟨0⟩ (frame 1 false)),
        (1, .push ⟨0⟩ (frame 10 true).marked), (0, .push ⟨0⟩ (frame 2 false)),
        (1, .endOfStream ⟨0⟩), (0, .endOfStream ⟨0⟩)] := by decide +kernel
  refine ⟨htraffic, ?_, ?_⟩
  · rw [htraffic]
    decide +kernel
  · rw [htraffic]
    decide +kernel

end StreamFanout.Interleaving
