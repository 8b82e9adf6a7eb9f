import StreamFanout.Proofs.Interleaving.Outcomes

/-!
What an end of stream reports and counts. A pass names the channels that lost a unit, and with its
last step it counts each of its units as pushed or dropped; a stream that cannot be distributed is
dropped as a whole.
-/
namespace StreamFanout

/-- A pass without channels has nothing before it but to count its units as dropped. -/
theorem Goes.of_discarding {silent : Bool} {gops : List Gop} {stops : List Stop} {r : Progress}
    (h : Goes silent (.waiting (.discarding gops)) stops r) :
    r = .waiting (.discarding gops) ∨ r = .discarded gops := by
  generalize hstart : Progress.waiting (.discarding gops) = start at h
  cases h with
  | here => exact .inl rfl
  | @leave s stops r h =>
    have hp : s.pass = .discarding gops := (Progress.waiting.inj hstart).symm
    have hover : s.next silent = .discarded gops := by
      rw [Stop.next, hp]
      rfl
    rw [hover] at h
    cases h
    exact .inr rfl

namespace Interleaving

variable {i : Interleaving}

/-- An end of stream takes all groups and leaves everything else. -/
theorem fanout_endStream (i : Interleaving) :
    (i.step .endStream).value.2.fanout = { i.fanout with grouping := {} } := by
  have ht := i.takes_endStream
  generalize (i.step .endStream).value = r at *
  cases ht with
  | empty | start => rfl
  | void _ n hs _ => cases hs

/-- Where no channel is live a pass counts all units of its stream as dropped. -/
theorem discarded_of_ended (h : i.Sound) (hl : i.fanout.live = []) (during : List Step) {s : Step}
    {result : Except FanoutError Report}
    (he : ((i.after (.endStream :: during)).step s).value.1 = .ended i.streamsEnded result) :
    result = .error (.noChannels i.fanout.grouping.groups.length) ∧
      ((i.after (.endStream :: during)).step s).value.2.fanout =
        (i.after (.endStream :: during)).fanout.discard i.fanout.grouping.groups := by
  obtain ⟨r, hgoes, hend⟩ := goes_of_ended h (.inl hl) during he
  rw [Fanout.opening, if_pos hl] at hgoes
  rcases hend with ⟨plan, lanes, rfl, -⟩ | ⟨gops, rfl, hresult, hfanout⟩
  · cases hgoes.of_discarding <;> contradiction
  · have hgops : gops = i.fanout.grouping.groups := by
      rcases hgoes.of_discarding with hr | hr
      · cases hr
      · exact Progress.discarded.inj hr
    rw [hresult, hfanout, hgops]
    exact ⟨rfl, rfl⟩

/-- An end of stream takes all that is buffered, and nothing of it comes back. Its pass comes to an
end unless it is dropped, and until then the counts stay as they are. With its last step it names
the channels of the blocks that the sink did not accept as a whole, in order of registration, and
counts the accepted units as pushed and the others as dropped. A stream without channels is counted
as dropped, and one without groups is over at once. -/
theorem losses_reported (config : Config) (before during : List Step) :
    let i := (fresh config).after before
    let n := i.streamsEnded
    let gops := i.fanout.grouping.groups
    let channels := i.fanout.live
    let begun := (i.step .endStream).value
    let run := .endStream :: during
    let j := i.after run
    begun.2.fanout = { i.fanout with grouping := {} } ∧
      (gops = [] → channels ≠ [] → begun.1 = .ended n (.error .noData)) ∧
      (channels = [] ∨ gops ≠ [] → begun.2.pass? n ≠ none) ∧
      (∀ p, j.pass? n = some p → ∀ later, .abandon n ∉ later →
        p.stepsLeft ≤ later.countP (·.pass? = some n) → i.Ends n (run ++ later)) ∧
      ∀ s,
        let next := (j.step s).value
        (s.pass? = some n → (∀ result, next.1 ≠ .ended n result) → next.2.fanout = j.fanout) ∧
        ∀ result, next.1 = .ended n result →
          (channels = [] → result = .error (.noChannels gops.length) ∧
            next.2.fanout = { j.fanout with
              counters := { j.fanout.counters with
                unitsDropped := j.fanout.counters.unitsDropped + Gop.unitCount gops } }) ∧
          (gops ≠ [] → channels ≠ [] → ∃ plan, Partition.plan gops.length channels = .ok plan ∧
            let calls := i.calls n (run ++ [s])
            let answers := i.answers n (run ++ [s])
            let failed := (plan.blocks.filter fun b =>
              deliveredOn b.channel calls answers ≠ Gop.flatten (b.share gops)).map Block.channel
            calls.length = answers.length ∧
            (∀ b ∈ plan.blocks,
              deliveredOn b.channel calls answers <+: Gop.flatten (b.share gops)) ∧
            failed.Sublist channels ∧ failed.Nodup ∧
            (failed = [] → ∃ report, result = .ok report) ∧
            (failed ≠ [] → result = .error (.pushFailed failed)) ∧
            ∃ lost, (delivered calls answers).length + lost = Gop.unitCount gops ∧
              next.2.fanout = { j.fanout with
                counters := { j.fanout.counters with
                  unitsPushed := j.fanout.counters.unitsPushed + (delivered calls answers).length
                  unitsDropped := j.fanout.counters.unitsDropped + lost
                  sessionsDistributed := j.fanout.counters.sessionsDistributed + 1 } }) := by
  intro i n gops channels begun run j
  have h : i.Sound := (sound_fresh config).after before
  refine ⟨i.fanout_endStream, fun hg hl => congrArg Prod.fst (step_endStream_empty hg hl),
    fun ho => ?_, fun p hp later hd hleft => ?_, fun s => ?_⟩
  · have hopen : begun.2.pass? n = some i.fanout.opening := by
      rw [show begun = _ from step_endStream ho, pass?_hold_self]
    rw [hopen]
    exact Option.some_ne_none _
  · exact (ends_of_resumes (h.after run) hp hd hleft).of_after
  · intro next
    refine ⟨fanout_of_not_ended, fun result he => ⟨fun hl => discarded_of_ended h hl during he,
      fun hg hl => ?_⟩⟩
    have hplan : Partition.plan gops.length channels = .ok i.fanout.plan :=
      Partition.plan_ok hl (mt List.eq_nil_of_length_eq_zero hg)
    refine ⟨i.fanout.plan, hplan, ?_⟩
    intro calls answers failed
    obtain ⟨lanes, hsettled, hresult, hfanout⟩ := settles_of_ended h hg hl during he
    have hchannels : i.fanout.plan.blocks.map Block.channel = channels := i.fanout.channels_blocks
    have hsub : failed.Sublist channels := hchannels ▸ List.filter_sublist.map Block.channel
    have hfailed : Lane.failedChannels lanes = failed := hsettled.failedChannels_eq
    have hbook := j.fanout.book_result i.fanout.plan lanes
    rw [hfailed, ← hresult] at hbook
    refine ⟨hsettled.length_eq, hsettled.prefix_share, hsub, h.live_nodup.sublist hsub,
      fun hnil => ?_, fun hsome => ?_, Lane.totalDropped lanes,
      hsettled.pushed_add_dropped (Fanout.contiguous_blocks hl), ?_⟩
    · exact ⟨_, hbook.trans (if_pos hnil)⟩
    · exact hbook.trans (if_neg hsome)
    · rw [hfanout, Fanout.booked, hsettled.pushed_eq]

-- A channel is released after its stream has ended and before it is looked up for the first time.
example :
    let frame (pts : UInt64) : AccessUnit := { pts, payload := ⟨#[1]⟩, isKeyframe := true }
    let i := (fresh {}).after [.call (.request (some ⟨0⟩)), .call (.request (some ⟨7⟩)),
      .call (.arriveAll [frame 0, frame 1])]
    let run : List Step := [.endStream, .call (.release ⟨0⟩), .resume 0, .resume 0, .resume 0,
      .resume 0, .resume 0, .resume 0]
    i.calls 0 run =
        [.push ⟨7⟩ (frame 1).marked, .endOfStream ⟨0⟩, .endOfStream ⟨7⟩] ∧
      .ended 0 (.error (.pushFailed [⟨0⟩])) ∈ i.shown run := by
  decide +kernel

end Interleaving

end StreamFanout
