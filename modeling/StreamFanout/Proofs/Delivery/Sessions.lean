import StreamFanout.Delivery.Dispatcher
import StreamFanout.Proofs.Distribution.Dues

/-!
What each consumer is to receive of a stream, and what the end of the stream is to report. Both
depend on the units of the stream and on the channels alone: the stream is cut at its keyframes, and
the runs are partitioned into one block for each channel.
-/
namespace StreamFanout

def Block.units (runs : List (List AccessUnit)) (b : Block) : List AccessUnit :=
  ((runs.drop b.start).take b.length).flatten

def blocksOver (channels : List Channel) (runs : List (List AccessUnit)) : List Block :=
  Partition.blocksOf runs.length channels

/-- What the consumer of `c` is to receive of one stream: the units of its block in order of
arrival, and then the end of the stream. A stream without units sends nothing. -/
def deliveries (channels : List Channel) (c : Channel) (us : List AccessUnit) :
    List ConsumerEvent :=
  let runs := keyframeRuns (us.map AccessUnit.marked)
  if us = [] then [] else
    (((blocksOver channels runs).find? (·.channel = c)).toList.flatMap (Block.units runs)).map
      .unit ++ [.endOfStream]

/-- What the end of one stream is to give back. -/
def verdict (channels : List Channel) (us : List AccessUnit) : Except FanoutError Report :=
  let runs := keyframeRuns (us.map AccessUnit.marked)
  let blocks := blocksOver channels runs
  if us = [] then .error .noData else
    .ok
      { assignments := blocks.map fun b => ⟨b.channel, b.start, b.length, (b.units runs).length⟩
        idle := blocks.countP (·.length = 0) }

theorem Block.units_groups (gops : List Gop) (b : Block) :
    b.units (gops.map Gop.units) = Gop.flatten (b.share gops) := by
  rw [units, ← List.map_drop, ← List.map_take, Gop.flatten, List.flatMap_def]
  rfl

/-- The blocks of what is buffered are those of the keyframe runs of the stream. -/
theorem blocksOver_keyframeRuns {g : Grouping} {us : List AccessUnit}
    (h : g.Groups (us.map AccessUnit.marked)) (channels : List Channel) :
    keyframeRuns (us.map AccessUnit.marked) = g.groups.map Gop.units ∧
      blocksOver channels (keyframeRuns (us.map AccessUnit.marked)) =
        Partition.blocksOf g.groups.length channels := by
  have hr := h.runs.eq_keyframeRuns
  refine ⟨hr.symm, ?_⟩
  rw [← hr, blocksOver, List.length_map]

variable {g : Grouping} {us : List AccessUnit} {channels : List Channel}

theorem ne_nil_of_groups (h : g.Groups (us.map AccessUnit.marked)) (hg : g.groups ≠ []) :
    us ≠ [] :=
  fun hu => hg (h.groups_eq_nil_iff.mpr (List.map_eq_nil_iff.mpr hu))

theorem deliveries_of_groups (h : g.Groups (us.map AccessUnit.marked)) (hg : g.groups ≠ [])
    (hd : channels.Nodup) {b : Block} (hb : b ∈ Partition.blocksOf g.groups.length channels) :
    deliveries channels b.channel us =
      (Gop.flatten (b.share g.groups)).map .unit ++ [.endOfStream] := by
  obtain ⟨hr, hblocks⟩ := blocksOver_keyframeRuns h channels
  have hfind : (Partition.blocksOf g.groups.length channels).find? (·.channel = b.channel) =
      some b := by
    rw [← Partition.map_channel_blocksOf g.groups.length channels] at hd
    obtain ⟨xs, ys, hxy⟩ := List.append_of_mem hb
    rw [hxy, List.map_append, List.map_cons, List.nodup_append] at hd
    rw [hxy, List.find?_append, List.find?_eq_none.mpr, List.find?_cons_of_pos (by simp)]
    · rfl
    · intro x hx he
      exact hd.2.2 _ (List.mem_map_of_mem hx) _ List.mem_cons_self (of_decide_eq_true he)
  rw [deliveries, if_neg (ne_nil_of_groups h hg), hblocks, hfind, hr]
  simp [Block.units_groups]

theorem verdict_of_groups (h : g.Groups (us.map AccessUnit.marked)) (hg : g.groups ≠ [])
    (hc : channels ≠ []) :
    verdict channels us =
      .ok (fullReport g.groups (Partition.across g.groups.length channels)) := by
  obtain ⟨hr, hblocks⟩ := blocksOver_keyframeRuns h channels
  rw [verdict, if_neg (ne_nil_of_groups h hg), hblocks, hr, fullReport, Partition.idle_across _ hc]
  simp only [Block.units_groups, Gop.length_flatten]
  rfl

end StreamFanout
