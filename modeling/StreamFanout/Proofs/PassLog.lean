import StreamFanout.Proofs.Interleaving.Sightings

/-!
The log of a pass is faithful. Each channel's groups are noted by their numbers, in order and as far
as the channel has been handed units of them, single units are announced right before they are
pushed, and the last event tells what the pass has pushed or lost.
-/
namespace StreamFanout

/-- Sorted by their keys, some entries stay the same. -/
theorem perm_flatMap_filter {α κ : Type} [DecidableEq κ] (key : α → κ) {keys : List κ}
    {xs : List α} (hd : keys.Nodup) (hx : ∀ x ∈ xs, key x ∈ keys) :
    xs.Perm (keys.flatMap fun k => xs.filter (key · = k)) := by
  induction keys generalizing xs with
  | nil =>
    have hnil : xs = [] := List.eq_nil_iff_forall_not_mem.mpr fun x hm => nomatch hx x hm
    simp [hnil]
  | cons k keys ih =>
    obtain ⟨hk, hd⟩ := List.nodup_cons.mp hd
    let others := xs.filter fun x => !decide (key x = k)
    have hothers : others.Perm (keys.flatMap fun j => others.filter (key · = j)) := by
      apply ih hd
      intro x hm
      obtain ⟨hm, hne⟩ := List.mem_filter.mp hm
      exact (List.mem_cons.mp (hx x hm)).resolve_left (by simpa using hne)
    have hsame : ∀ j ∈ keys, others.filter (key · = j) = xs.filter (key · = j) := by
      intro j hj
      rw [List.filter_filter]
      apply List.filter_congr
      intro x _
      have hne : j ≠ k := fun he => hk (he ▸ hj)
      by_cases hxj : key x = j <;> simp [hxj, hne]
    rw [List.flatMap_congr hsame] at hothers
    rw [List.flatMap_cons]
    exact (List.filter_append_perm _ xs).symm.trans (hothers.append_left _)

def notedNumbers (log : List LogEvent) : List Nat :=
  (notes log).map (·.2.1)

/-- Sorted by their channels, the noted groups are those that are noted on each. -/
theorem KeepsTo.perm_notedNumbers {channels : List Channel} {silent : Bool} {seen : List Sighting}
    (h : KeepsTo channels silent seen) :
    (notedNumbers (logOf seen)).Perm
      (channels.flatMap fun c => (notesOn c (logOf seen)).map Prod.fst) := by
  have hmem : ∀ e ∈ notes (logOf seen), e.1 ∈ channels := by
    intro e he
    by_contra hc
    have hnone : e.2 ∈ notesOn e.1 (logOf seen) :=
      List.mem_map_of_mem (List.mem_filter.mpr ⟨he, by simp⟩)
    rw [h.foreign e.1 hc] at hnone
    cases hnone
  have hperm := (perm_flatMap_filter Prod.fst h.nodup hmem).map (·.2.1)
  simpa [List.map_flatMap, notedNumbers, notesOn, Function.comp_def] using hperm

namespace Progress.Recorded

variable {gops : List Gop} {silent : Bool} {seen : List Sighting} {plan : Partition}
  {lanes : List Lane}

/-- The groups that are noted on a channel of the pass are those that it has been handed units of,
and they are the first groups of its block. -/
theorem noted_blocks (h : (finished plan lanes).Recorded gops silent seen) {b : Block}
    (hb : b ∈ lanes.map Lane.block) :
    notesOn b.channel (logOf seen) <+: b.numbered gops ∧
      ∀ r, r < (notesOn b.channel (logOf seen)).length ↔
        b.Begun gops (sentOn b.channel (callsOf seen)).length r := by
  obtain ⟨l, hl, rfl⟩ := List.mem_map.mp hb
  have hnoted := h.noted l hl
  constructor
  · exact hnoted.notes_begin
  · intro r
    rw [Block.begun_iff hnoted.length_share]
    exact hnoted.begun_iff r

theorem channels_eq (plan : Partition) (lanes : List Lane) :
    (finished plan lanes).allLanes.map Lane.channel = (lanes.map Lane.block).map Block.channel := by
  simp [allLanes, Function.comp_def]

/-- Two lanes never note the same number, for their blocks do not overlap. -/
theorem nodup_notedNumbers (h : (finished plan lanes).Recorded gops silent seen)
    (hc : Contiguous 0 gops.length (lanes.map Lane.block)) : (notedNumbers (logOf seen)).Nodup := by
  have hsublist : ((lanes.map Lane.block).flatMap fun b =>
      (notesOn b.channel (logOf seen)).map Prod.fst).Sublist (List.range gops.length) := by
    rw [← hc.flatMap_numbered]
    apply List.Sublist.flatMap_right
    intro b hb
    exact (h.noted_blocks hb).1.sublist.map Prod.fst
  have hperm := h.keeps.perm_notedNumbers
  rw [channels_eq, List.flatMap_map] at hperm
  exact hperm.nodup_iff.mpr (List.nodup_range.sublist hsublist)

/-- A lane that has been handed all units of its block has noted all groups of it. -/
theorem noted_whole (h : (finished plan lanes).Recorded gops silent seen) {b : Block}
    (hb : b ∈ lanes.map Lane.block)
    (hsent : sentOn b.channel (callsOf seen) = Gop.flatten (b.share gops)) :
    notesOn b.channel (logOf seen) = b.numbered gops := by
  obtain ⟨l, hl, rfl⟩ := List.mem_map.mp hb
  have hnoted := h.noted l hl
  apply hnoted.notes_begin.eq_of_length_le
  by_contra hlt
  rw [Nat.not_le, Block.length_numbered] at hlt
  -- The first group that is not noted has a unit, and that has been handed over.
  have hless := Gop.unitCount_take_lt _ hlt hlt
  rw [List.take_length, ← Gop.length_flatten (l.block.share gops), ← hsent] at hless
  rw [hnoted.length_share] at hlt
  exact Nat.lt_irrefl _ ((hnoted.begun_iff _).mpr ⟨hlt, hless⟩)

/-- If all units have been handed over, each number of the stream is noted once. -/
theorem notedNumbers_perm_range (h : (finished plan lanes).Recorded gops silent seen)
    (hc : Contiguous 0 gops.length (lanes.map Lane.block))
    (hsent : ∀ b ∈ lanes.map Lane.block,
      sentOn b.channel (callsOf seen) = Gop.flatten (b.share gops)) :
    (notedNumbers (logOf seen)).Perm (List.range gops.length) := by
  have hwhole : ∀ b ∈ lanes.map Lane.block,
      (notesOn b.channel (logOf seen)).map Prod.fst = (b.numbered gops).map Prod.fst :=
    fun b hb => congrArg (List.map Prod.fst) (h.noted_whole hb (hsent b hb))
  have hperm := h.keeps.perm_notedNumbers
  rwa [channels_eq, List.flatMap_map, List.flatMap_congr hwhole, hc.flatMap_numbered] at hperm

end Progress.Recorded

namespace Interleaving

/-- What is seen of a pass over some groups and channels that runs to its end is its own log, with
its calls in between. On each channel it notes the groups of the channel's block by their numbers
in the stream and their lengths, in order, and it notes exactly those that it hands a unit of. No
number is noted twice; without an error each is noted once. Unless single units are left out, the
pass logs each of them right before it pushes it, and nowhere else. The last event tells how many
units the pass has added to the count of pushed ones or, with the number of channels that failed,
to the count of dropped ones. -/
theorem pass_log_faithful (config : Config) (before during : List Step)
    (result : Except FanoutError Report) :
    let i := (fresh config).after before
    let n := i.streamsEnded
    let run := .endStream :: during
    let gops := i.fanout.grouping.finalize.value
    let channels := i.fanout.live
    let calls := i.calls n run
    let seen := i.sightings n run
    let log := logOf seen
    gops ≠ [] → channels ≠ [] → .ended n result ∈ i.shown run →
      callsOf seen = calls ∧
      (∃ plan, Partition.plan gops.length channels = .ok plan ∧
        (∀ c, c ∉ channels → notesOn c log = []) ∧
        ∀ b ∈ plan.blocks,
          notesOn b.channel log <+: b.numbered gops ∧
          sentOn b.channel calls <+: Gop.flatten (b.share gops) ∧
          ∀ r, r < (notesOn b.channel log).length ↔
            b.Begun gops (sentOn b.channel calls).length r) ∧
      (notedNumbers log).Nodup ∧
      (config.silent = false → Announced seen) ∧
      (∀ report, result = .ok report →
        (notedNumbers log).Perm (List.range gops.length) ∧
        ∃ units : Nat, log.getLast? = some (.finished units) ∧
          i.raised Counters.unitsPushed n run = units) ∧
      ∀ e, result = .error e → ∃ (failed : List Channel) (dropped : Nat),
        e = .pushFailed failed ∧
        log.getLast? = some (.finishedWithLoss failed.length dropped) ∧
        i.raised Counters.unitsDropped n run = dropped := by
  intro i n run gops channels calls seen log hg hl hm
  have h : i.Sound := (sound_fresh config).after before
  have hgroups : gops = i.fanout.grouping.groups := Grouping.finalize_value _
  have hcalls : callsOf seen = calls := i.callsOf_sightings n run
  have hconfig : i.fanout.config = config := config_after _ before
  have hplan : Partition.plan gops.length channels = .ok i.fanout.plan := by
    rw [hgroups] at hg ⊢
    exact Partition.plan_ok hl (mt List.eq_nil_of_length_eq_zero hg)
  rw [hgroups] at hg
  obtain ⟨lanes, hrecorded, hblocks, hlast, hresult, hpushed, hdropped⟩ :=
    recorded_of_shown h hg hl hm
  have hcontiguous : Contiguous 0 i.fanout.grouping.groups.length (lanes.map Lane.block) :=
    hblocks ▸ Fanout.contiguous_blocks hl
  have hchannels :
      (Progress.finished i.fanout.plan lanes).allLanes.map Lane.channel = channels := by
    rw [Progress.Recorded.channels_eq, hblocks, Fanout.channels_blocks]
  refine ⟨hcalls, ⟨i.fanout.plan, hplan, ?_, ?_⟩, ?_, ?_, ?_, ?_⟩
  · rw [← hchannels]
    exact hrecorded.keeps.foreign
  · intro b hb
    rw [hgroups, ← hcalls]
    have hmem : b ∈ lanes.map Lane.block := by
      rw [hblocks]
      exact hb
    obtain ⟨hlead, hbegun⟩ := hrecorded.noted_blocks hmem
    refine ⟨hlead, ?_, hbegun⟩
    rw [hcalls]
    exact sentOn_prefix_share h during hb
  · exact hrecorded.nodup_notedNumbers hcontiguous
  · rw [← hconfig]
    exact hrecorded.keeps.announced
  · rintro report rfl
    have hsent := sentOn_of_ok h hm
    constructor
    · rw [hgroups]
      apply hrecorded.notedNumbers_perm_range hcontiguous
      rw [hblocks, hcalls]
      exact hsent
    · split at hresult
      · next hfailed =>
        rw [Fanout.closing, if_pos hfailed] at hlast
        exact ⟨_, hlast, hpushed⟩
      · cases hresult
  · rintro e rfl
    split at hresult
    · cases hresult
    · next hfailed =>
      cases hresult
      rw [Fanout.closing, if_neg hfailed] at hlast
      exact ⟨_, _, rfl, hlast, hdropped⟩

/-- Three groups over two channels, of which the second refuses its first unit. -/
theorem pass_log_faithful_refused :
    let frame (pts : UInt64) (isKeyframe : Bool) : AccessUnit :=
      { pts, payload := ⟨#[1]⟩, isKeyframe }
    let before : List Step := [.call (.request (some ⟨0⟩)), .call (.request (some ⟨7⟩)),
      .call (.arriveAll [frame 0 true, frame 1 false, frame 2 true, frame 3 true])]
    let during : List Step := [.resume 0, .resume 0, .resume 0, .resume 0,
      .resume 0 (.refused (.channelClosed ⟨7⟩)), .resume 0, .resume 0, .resume 0]
    let i := (fresh { silent := false }).after before
    let seen := i.sightings 0 (.endStream :: during)
    (notedNumbers (logOf seen)).Nodup ∧ Announced seen ∧
      ∃ dropped : Nat, (logOf seen).getLast? = some (.finishedWithLoss 1 dropped) ∧
        i.raised Counters.unitsDropped 0 (.endStream :: during) = dropped := by
  intro frame before during i seen
  have hgops : i.fanout.grouping.finalize.value.length = 3 := by decide +kernel
  have hlive : i.fanout.live = [⟨0⟩, ⟨7⟩] := by decide +kernel
  have hended : (i.shown (.endStream :: during))[8]? =
      some (.ended 0 (.error (.pushFailed [⟨7⟩]))) := by decide +kernel
  obtain ⟨-, -, hnodup, hannounced, -, herror⟩ := pass_log_faithful { silent := false } before
    during _ (List.ne_nil_of_length_eq_add_one hgops) (by simp [i, hlive])
    (List.mem_of_getElem? hended)
  obtain ⟨failed, dropped, hfailed, hlast, hraised⟩ := herror _ rfl
  cases hfailed
  exact ⟨hnodup, hannounced rfl, dropped, hlast, hraised⟩

end Interleaving

end StreamFanout
