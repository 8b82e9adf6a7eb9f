import StreamFanout.Fanout
import StreamFanout.Proofs.Distribution.Channels

/-!
What an end of stream does to a fanout. It takes all groups; without groups that is all, and
otherwise it opens a pass over the live channels, or one that gives the groups up where no channel
is live. Only when a pass is over are its units counted.
-/
namespace StreamFanout.Fanout

def plan (f : Fanout) : Partition :=
  Partition.across f.grouping.groups.length f.live

def blocks (f : Fanout) : List Block :=
  f.plan.blocks

theorem contiguous_blocks {f : Fanout} (hl : f.live ≠ []) :
    Contiguous 0 f.grouping.groups.length f.blocks :=
  Partition.contiguous_blocksOf hl

@[simp] theorem channels_blocks (f : Fanout) : f.blocks.map Block.channel = f.live :=
  Partition.map_channel_blocksOf _ _

theorem nodup_blocks {f : Fanout} (hd : f.live.Nodup) : (f.blocks.map Block.channel).Nodup := by
  rwa [channels_blocks]

theorem exists_block {f : Fanout} {c : Channel} (hc : c ∈ f.live) :
    ∃ b ∈ f.blocks, b.channel = c := by
  rw [← channels_blocks] at hc
  exact List.mem_map.mp hc

def booked (f : Fanout) (lanes : List Lane) : Fanout :=
  { f with
    counters := { f.counters with
      unitsPushed := f.counters.unitsPushed + Lane.totalPushed lanes
      unitsDropped := f.counters.unitsDropped + Lane.totalDropped lanes
      sessionsDistributed := f.counters.sessionsDistributed + 1 } }

theorem book_state (f : Fanout) (plan : Partition) (lanes : List Lane) :
    (f.book plan lanes).value.2 = f.booked lanes := by
  simp only [book]
  split <;> rfl

theorem book_result (f : Fanout) (plan : Partition) (lanes : List Lane) :
    (f.book plan lanes).value.1 =
      if Lane.failedChannels lanes = [] then .ok ⟨lanes.map Lane.assignment, plan.idle⟩
      else .error (.pushFailed (Lane.failedChannels lanes)) := by
  by_cases h : Lane.failedChannels lanes = []
  · simp [book, h]
  · simp [book, h]

/-- Lanes over the live channels that have all of their groups. -/
def lanes (f : Fanout) : List Lane :=
  f.blocks.map (Lane.fresh f.grouping.groups)

def opening (f : Fanout) : Pass :=
  if f.live = [] then .discarding f.grouping.groups else Pass.start f.plan f.lanes

theorem opening_of_live {f : Fanout} (hl : f.live ≠ []) :
    f.opening = Pass.start f.plan f.lanes := if_neg hl

theorem endStream_value (f : Fanout) : f.endStream.value =
    ((distribute f.grouping.groups f.live).value, { f with grouping := {} }) := by
  simp only [endStream, Logged.value_bind, Grouping.finalize_value, Logged.value_pure]

theorem endStream_empty {f : Fanout} (hg : f.grouping.groups = []) (hl : f.live ≠ []) :
    f.endStream.value = (.ended (.error .noData), { f with grouping := {} }) := by
  have hplan : Partition.plan f.grouping.groups.length f.live = .error .noData := by
    rw [Partition.plan, if_neg hl, hg]
    rfl
  rw [endStream_value, distribute, hplan]
  rfl

/-- With groups, or without channels, an end of stream opens a pass. -/
theorem endStream_opens {f : Fanout} (h : f.live = [] ∨ f.grouping.groups ≠ []) :
    f.endStream.value = (.suspended f.opening, { f with grouping := {} }) := by
  rw [endStream_value, distribute]
  by_cases hl : f.live = []
  · have hplan : Partition.plan f.grouping.groups.length f.live =
        .error (.noChannels f.grouping.groups.length) := if_pos hl
    rw [hplan, opening, if_pos hl]
    rfl
  · have hplan : Partition.plan f.grouping.groups.length f.live = .ok f.plan :=
      Partition.plan_ok hl (mt List.eq_nil_of_length_eq_zero (h.resolve_left hl))
    have hcut : Lane.cut f.plan.blocks f.grouping.groups = f.lanes :=
      Lane.cut_eq (contiguous_blocks hl)
    rw [hplan, opening_of_live hl]
    simp only [hcut]
    split <;> rfl

section

variable {f : Fanout}

theorem channels_lanes (f : Fanout) : f.lanes.map Lane.channel = f.live := by
  rw [lanes, List.map_map]
  exact channels_blocks f

theorem map_block_lanes (f : Fanout) : f.lanes.map Lane.block = f.plan.blocks := by
  rw [lanes, List.map_map]
  exact List.map_id _

theorem units_opening (f : Fanout) : f.opening.units = Gop.unitCount f.grouping.groups := by
  unfold opening
  split
  · rfl
  · next hl => rw [Pass.units_start, lanes, Lane.totalUnits_fresh (contiguous_blocks hl)]

theorem scope_opening (f : Fanout) : f.opening.scope = f.live := by
  unfold opening
  split
  · next hl => exact hl.symm
  · rw [Pass.scope_start, channels_lanes]

theorem inStep_opening (f : Fanout) : f.opening.InStep := by
  unfold opening
  split
  · trivial
  · next hl =>
    exact Pass.inStep_start f.map_block_lanes (Lane.inStep_fresh (contiguous_blocks hl).stop_le)

/-- The pass that an end of stream opens has the whole schedule before it. -/
theorem opening_ahead (hl : f.live ≠ []) (fb : Feedback) :
    f.opening.Ahead fb f.grouping.groups.length f.live (schedule f.blocks f.grouping.groups)
      f.live := by
  have hc := contiguous_blocks hl
  rw [opening_of_live hl, ← Lane.agenda_fresh hc]
  refine Pass.start_ahead f.channels_lanes (Lane.fits_fresh hc) (Lane.inStep_fresh hc.stop_le) ?_
  intro l hm
  rw [← map_block_lanes]
  exact List.mem_map_of_mem hm

end

/-- What a stop has come to: the pass goes on and the fanout stays as it is, or the pass ends and
its units are counted. -/
theorem resume_cases (f : Fanout) (p : Pass) (a : Answer) :
    (∃ p', (p.resume f.roster.contains f.config.silent a).value = .waiting p' ∧
      (f.resume p a).value = (.suspended p', f)) ∨
    (∃ plan lanes, (p.resume f.roster.contains f.config.silent a).value = .finished plan lanes ∧
      (f.resume p a).value = (.ended (f.book plan lanes).value.1, f.booked lanes)) ∨
    ∃ gops, (p.resume f.roster.contains f.config.silent a).value = .discarded gops ∧
      (f.resume p a).value = (.ended (.error (.noChannels gops.length)), f.discard gops) := by
  rw [resume, Logged.value_bind]
  cases hp : (p.resume f.roster.contains f.config.silent a).value with
  | waiting p' => exact .inl ⟨p', rfl, rfl⟩
  | finished plan lanes =>
    refine .inr (.inl ⟨plan, lanes, rfl, ?_⟩)
    rw [← book_state]
    rfl
  | discarded gops => exact .inr (.inr ⟨gops, rfl, rfl⟩)

end StreamFanout.Fanout
