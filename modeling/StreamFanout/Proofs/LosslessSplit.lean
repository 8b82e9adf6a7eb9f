import StreamFanout.Proofs.Distribution.Channels
import StreamFanout.Proofs.Interleaving.Outcomes

/-!
A stream is split without loss: when every push is accepted and no channel is released meanwhile,
the channels together have received the stream, group by group and in order.
-/
namespace StreamFanout

/-- No push was refused: the `k`-th answer is to the `k`-th call. -/
def NoRefusal (calls : List SinkCall) (answers : List Answer) : Prop :=
  ∀ (k : Nat) c u a, calls[k]? = some (.push c u) → answers[k]? = some a → a = .accepted

theorem discont_of_mem_marked {us : List AccessUnit} {u : AccessUnit}
    (h : u ∈ us.map AccessUnit.marked) (hk : u.isKeyframe = true) : u.discont = true := by
  obtain ⟨v, -, rfl⟩ := List.mem_map.mp h
  have hv : v.isKeyframe = true := hk
  simp [AccessUnit.marked, hv]

/-- The share of a block that starts after the first group begins with a keyframe, if it has any
unit. -/
theorem head_share_isKeyframe {us : List AccessUnit} {gops : List Gop}
    (h : KeyframeRuns us (gops.map Gop.units)) {b : Block} (hb : 0 < b.start) :
    ∀ u ∈ (Gop.flatten (b.share gops)).head?, u.isKeyframe = true := by
  intro u hu
  cases hs : b.share gops with
  | nil =>
    rw [hs] at hu
    cases hu
  | cons g gs =>
    rw [hs, Gop.flatten_cons, Gop.units] at hu
    cases hu
    have hg : g ∈ gops.tail := by
      have hm : g ∈ gops.drop b.start :=
        List.mem_of_mem_take (by rw [← Block.share, hs]; exact List.mem_cons_self)
      rw [← Nat.succ_pred_eq_of_pos hb, ← List.drop_tail] at hm
      exact List.mem_of_mem_drop hm
    apply h.head_isKeyframe g.units
    · rw [← List.map_tail]
      exact List.mem_map_of_mem hg
    · rfl

namespace Interleaving

variable {i : Interleaving} {during : List Step}

/-- Nothing is held back from a pass whose pushes are all accepted and whose channels stay live. -/
theorem calls_eq_schedule (h : i.Sound) (hg : i.fanout.grouping.groups ≠ [])
    (hl : i.fanout.live ≠ []) (he : i.Ends i.streamsEnded (.endStream :: during))
    (ha : NoRefusal (i.calls i.streamsEnded (.endStream :: during))
      (i.answers i.streamsEnded (.endStream :: during)))
    (hr : ∀ c ∈ i.fanout.live, ∀ s ∈ i.stops i.streamsEnded (.endStream :: during),
      s.reply.roster.contains c = true) :
    i.calls i.streamsEnded (.endStream :: during) =
      (schedule i.fanout.blocks i.fanout.grouping.groups).map Slot.call ++
        i.fanout.live.map .endOfStream := by
  have hwhole := calls_of_ends h hg hl he
  have hlen := (length_calls h (.inr hg) during).2.2.1 he
  rw [hwhole, Pass.calls, Feedback.handed_eq_self]
  · intro j s hs
    rw [Nat.zero_add]
    have hcall : (i.calls i.streamsEnded (.endStream :: during))[j]? = some s.call := by
      rw [hwhole, Pass.calls, List.getElem?_append_left, List.getElem?_map, hs]
      · rfl
      · obtain ⟨hj, -⟩ := List.getElem?_eq_some_iff.mp hs
        rwa [List.length_map]
    obtain ⟨a, hanswer⟩ : ∃ a, (i.answers i.streamsEnded (.endStream :: during))[j]? = some a := by
      obtain ⟨hj, -⟩ := List.getElem?_eq_some_iff.mp hcall
      rw [hlen] at hj
      exact ⟨_, List.getElem?_eq_getElem hj⟩
    show (i.answers i.streamsEnded (.endStream :: during))[j]?.getD .accepted = .accepted
    rw [hanswer]
    exact ha j _ _ a hcall hanswer
  · intro s hs
    have hc : s.channel ∈ i.fanout.live := by
      rw [← i.fanout.channels_blocks]
      exact mem_channels_of_mem_schedule hs
    exact feedback_live (hr s.channel hc) s.gop

/-- The channels of a pass that loses nothing receive the accepted units in order of arrival, each
keyframe marked as a discontinuity. No group is divided, and all channels but the first begin with
a keyframe. -/
theorem split_lossless (config : Config) (before during : List Step) :
    let i := (fresh config).after before
    let n := i.streamsEnded
    let run := .endStream :: during
    let us := openStream before
    let channels := i.fanout.live
    let sent (c : Channel) := sentOn c (i.calls n run)
    us ≠ [] → channels ≠ [] → i.Ends n run → NoRefusal (i.calls n run) (i.answers n run) →
    (∀ c ∈ channels, ∀ xs ys, during = xs ++ .call (.release c) :: ys →
      i.Ends n (.endStream :: xs)) →
    channels.flatMap sent = us.map AccessUnit.marked ∧
      (∃ shares : List (List (List AccessUnit)),
        KeyframeRuns (us.map AccessUnit.marked) shares.flatten ∧
        channels.map sent = shares.map List.flatten) ∧
      ∀ c ∈ channels.tail, ∀ u ∈ (sent c).head?, u.isKeyframe = true ∧ u.discont = true := by
  intro i n run us channels sent hus hl he ha hr
  have h : i.Sound := (sound_fresh config).after before
  have hgroups : i.fanout.grouping.Groups (us.map AccessUnit.marked) := groups_after config before
  have hg : i.fanout.grouping.groups ≠ [] := by
    intro hnil
    have hu := hgroups.units_eq
    rw [Grouping.units, hnil, Gop.flatten_nil] at hu
    exact hus (List.map_eq_nil_iff.mp hu.symm)
  let gops := i.fanout.grouping.groups
  let blocks := i.fanout.blocks
  have hc : Contiguous 0 gops.length blocks := Fanout.contiguous_blocks hl
  have hchannels : blocks.map Block.channel = channels := i.fanout.channels_blocks
  have hlive : ∀ c ∈ channels, ∀ s ∈ i.stops n run, s.reply.roster.contains c = true := by
    intro c hm s hs
    refine live_of_mem_stops (i.lt_streamsEnded []) (mem_live_step hm fun he => by cases he)
      (fun xs ys hx => ?_) s hs
    refine (ends_cons fun result hend => ?_).mp (hr c hm xs ys hx)
    rw [step_endStream (.inr hg)] at hend
    cases hend
  have hcalls := calls_eq_schedule h hg hl he ha hlive
  -- What a channel receives is the share of its block.
  have hsent : ∀ b ∈ blocks, sent b.channel = Gop.flatten (b.share gops) := by
    intro b hb
    have hd : (blocks.map Block.channel).Nodup := by
      rw [hchannels]
      exact h.live_nodup
    rw [← units_schedule hc hd hb, ← sentOn_pushes]
    show sentOn b.channel (i.calls n run) = _
    rw [hcalls, sentOn_append, sentOn_endOfStream, List.append_nil]
  have hmap : channels.map sent = blocks.map fun b => Gop.flatten (b.share gops) := by
    rw [← hchannels, List.map_map]
    exact List.map_congr_left hsent
  have hshares : blocks.flatMap (Block.share gops) = gops := hc.flatMap_share
  refine ⟨?_, ⟨blocks.map fun b => (b.share gops).map Gop.units, ?_, ?_⟩, ?_⟩
  · have hunits := congrArg Gop.flatten hshares
    rw [Gop.flatten, List.flatMap_assoc, List.flatMap_def] at hunits
    rw [List.flatMap_def, hmap, ← hgroups.units_eq]
    exact hunits
  · have hruns := congrArg (List.map Gop.units) hshares
    rw [List.map_flatMap, List.flatMap_def] at hruns
    rw [hruns]
    exact hgroups.runs
  · rw [hmap, List.map_map]
    rfl
  · intro c hm u hu
    rw [← hchannels, ← List.map_tail] at hm
    obtain ⟨b, hb, rfl⟩ := List.mem_map.mp hm
    rw [hsent b (List.mem_of_mem_tail hb)] at hu
    have hpos : 0 < b.start :=
      Partition.start_pos (List.length_pos_iff.mpr hg) b hb
    have hk := head_share_isKeyframe hgroups.runs hpos u hu
    have hmem : u ∈ us.map AccessUnit.marked := by
      rw [← hgroups.units_eq]
      exact (Gop.flatten_sublist (b.share_sublist gops)).subset (List.mem_of_mem_head? hu)
    exact ⟨hk, discont_of_mem_marked hmem hk⟩

/-- A stream that starts without a keyframe, with a refused unit in it, is split over two channels
while the next stream arrives. -/
theorem split_lossless_two_channels :
    let frame (pts : UInt64) (isKeyframe : Bool) : AccessUnit :=
      { pts, payload := ⟨#[1]⟩, isKeyframe }
    let before : List Step := [.call (.request (some ⟨0⟩)), .call (.arrive (frame 0 false)),
      .call (.arrive { pts := 1, payload := ⟨#[]⟩, isKeyframe := true }),
      .call (.request (some ⟨7⟩)), .call (.arriveAll [frame 2 true, frame 3 false, frame 4 true])]
    let during : List Step := [.resume 0, .resume 0, .resume 0, .call (.arrive (frame 5 true)),
      .resume 0, .call (.request (some ⟨3⟩)), .resume 0, .resume 0, .resume 0, .resume 0, .resume 0,
      .resume 0, .resume 0]
    let i := (fresh {}).after before
    sentOn ⟨0⟩ (i.calls 0 (.endStream :: during)) ++ sentOn ⟨7⟩ (i.calls 0 (.endStream :: during)) =
      [frame 0 false, (frame 2 true).marked, frame 3 false, (frame 4 true).marked] := by
  intro frame before during i
  have hchannels : i.fanout.live = [⟨0⟩, ⟨7⟩] := by decide +kernel
  have hends : i.Ends 0 (.endStream :: during) := by decide +kernel
  have haccepted : ∀ a ∈ i.answers 0 (.endStream :: during), a = .accepted := by decide +kernel
  have hkept : ∀ c, .call (.release c) ∉ during := by simp [during]
  have hsplit := (split_lossless {} before during (by decide +kernel) (by decide +kernel) hends
    (fun k c u a _ ha => haccepted a (List.mem_of_getElem? ha))
    (fun c _ xs ys hd => absurd (by simp [hd]) (hkept c))).1
  have hsum : i.fanout.live.flatMap (fun c => sentOn c (i.calls 0 (.endStream :: during))) =
      sentOn ⟨0⟩ (i.calls 0 (.endStream :: during)) ++
        sentOn ⟨7⟩ (i.calls 0 (.endStream :: during)) := by
    rw [hchannels]
    simp
  exact hsum.symm.trans hsplit

end Interleaving

end StreamFanout
