import Mathlib.Logic.ExistsUnique
import StreamFanout.Proofs.Distribution.Words

/-!
The laws of a partition, for all numbers of groups and channels. The blocks divide the groups, in
the order of the channels; with enough groups all have the same length but the last, which takes the
remainder, and otherwise the first channels have one group each. In 64-bit words no number on the
way overflows.
-/
namespace StreamFanout

/-- Each group is in exactly one block of a row that covers it. -/
theorem Contiguous.existsUnique_getElem? {s e k : Nat} {bs : List Block} (h : Contiguous s e bs)
    (hs : s ≤ k) (he : k < e) :
    ∃! i : Nat, ∃ b : Block, bs[i]? = some b ∧ b.start ≤ k ∧ k < b.stop := by
  obtain ⟨b, hb, hlo, hhi⟩ := h.exists_mem (f := id) hs he
  obtain ⟨i, hi⟩ := List.mem_iff_getElem?.mp hb
  refine ⟨i, ⟨b, hi, hlo, hhi⟩, ?_⟩
  rintro j ⟨c, hj, hlo', hhi'⟩
  have hapart := List.pairwise_iff_getElem.mp h.pairwise
  obtain ⟨hi', rfl⟩ := List.getElem?_eq_some_iff.mp hi
  obtain ⟨hj', rfl⟩ := List.getElem?_eq_some_iff.mp hj
  simp only [id] at hlo hhi
  rcases Nat.lt_trichotomy i j with hlt | heq | hlt
  · have := hapart i j hi' hj' hlt
    omega
  · exact heq.symm
  · have := hapart j i hj' hi' hlt
    omega

namespace Partition

variable {gops i : Nat} {channels : List Channel}

theorem exists_getElem?_blocksOf (gops : Nat) (hi : i < channels.length) :
    ∃ b, (blocksOf gops channels)[i]? = some b ∧ b.length = lengthAt gops channels.length i := by
  have hlen : i < (blocksOf gops channels).length := by
    rwa [blocksOf, List.length_mapIdx]
  exact ⟨_, List.getElem?_eq_getElem hlen,
    (getElem?_blocksOf (List.getElem?_eq_getElem hlen)).2⟩

/-- The longest block is the last, or with too few groups any that has one. -/
theorem rounds_across (hc : channels ≠ []) (hg : 0 < gops) :
    (across gops channels).rounds =
      if gops < channels.length then 1
      else gops / channels.length + gops % channels.length := by
  have hn := List.length_pos_iff.mpr hc
  have longest (m : Nat) (hle : ∀ i, lengthAt gops channels.length i ≤ m)
      (hmem : ∃ i < channels.length, lengthAt gops channels.length i = m) :
      (across gops channels).rounds = m := by
    apply Nat.le_antisymm
    · refine rounds_le_iff.mpr fun b hb => ?_
      obtain ⟨i, hi⟩ := List.mem_iff_getElem?.mp hb
      exact (getElem?_blocksOf hi).2 ▸ hle i
    · obtain ⟨i, hi, rfl⟩ := hmem
      obtain ⟨b, hb, hlen⟩ := exists_getElem?_blocksOf gops hi
      exact hlen ▸ rounds_le_iff.mp (Nat.le_refl _) b (List.mem_of_getElem? hb)
  by_cases h : gops < channels.length
  · rw [if_pos h]
    refine longest 1 (fun i => ?_) ⟨0, hn, ?_⟩
    · rw [lengthAt, if_pos h]
      split <;> decide
    · rw [lengthAt, if_pos h, if_pos hg]
  · rw [if_neg h]
    refine longest _ (fun i => ?_) ⟨channels.length - 1, Nat.sub_lt hn Nat.one_pos, ?_⟩
    · rw [lengthAt, if_neg h]
      split <;> omega
    · rw [lengthAt, if_neg h, if_pos (Nat.sub_add_cancel hn)]

/-- With a channel and a group there is a partition. Its blocks stand on the channels, in their
order, and cover the groups without a gap, so each group is in exactly one block; lengths, rounds
and idle channels are those of a division with remainder, or with too few groups one group each. A
computation in 64-bit words gives the same, where the counts are words: nothing overflows, not even
where the last block stops. -/
theorem partition_laws (gops : Nat) (channels : List Channel) (hc : channels ≠ []) (hg : 1 ≤ gops) :
    let n := channels.length
    ∃ p, plan gops channels = .ok p ∧
      p.blocks.map Block.channel = channels ∧ Contiguous 0 gops p.blocks ∧
      (∀ k < gops, ∃! i : Nat, ∃ b : Block, p.blocks[i]? = some b ∧ b.start ≤ k ∧ k < b.stop) ∧
      (n ≤ gops → ∀ (i : Nat) b, p.blocks[i]? = some b →
        b.length = if i + 1 = n then gops / n + gops % n else gops / n) ∧
      (gops < n → ∀ (i : Nat) b, p.blocks[i]? = some b → b.length = if i < gops then 1 else 0) ∧
      p.idle = p.blocks.countP (·.length = 0) ∧ p.idle = n - min n gops ∧
      p.rounds = (if n ≤ gops then gops / n + gops % n else 1) ∧
      (gops < UInt64.size → n < UInt64.size →
        ∃ w, WordPartition.plan? (.ofNat gops) channels = some (.ok w) ∧
          w.blocks.map WordBlock.block = p.blocks ∧ w.idle.toNat = p.idle ∧
          ∀ b ∈ w.blocks, ∃ e, b.stop? = some e ∧ e.toNat = b.block.stop) := by
  intro n
  have hcontiguous : Contiguous 0 gops (blocksOf gops channels) := contiguous_blocksOf hc
  refine ⟨across gops channels, plan_ok hc (Nat.ne_of_gt hg), map_channel_blocksOf _ _,
    hcontiguous, fun k hk => hcontiguous.existsUnique_getElem? (Nat.zero_le k) hk,
    fun hn i b hb => ?_, fun hn i b hb => ?_, idle_across gops hc, ?_, ?_, fun hw hn => ?_⟩
  · rw [(getElem?_blocksOf hb).2, lengthAt, if_neg (Nat.not_lt.mpr hn)]
    split <;> rfl
  · rw [(getElem?_blocksOf hb).2, lengthAt, if_pos hn]
  · show n - gops = n - min n gops
    omega
  · rw [rounds_across hc hg]
    by_cases h : gops < n
    · rw [if_pos h, if_neg (Nat.not_le.mpr h)]
    · rw [if_neg h, if_pos (Nat.le_of_not_lt h)]
  · have hgops : (UInt64.ofNat gops).toNat = gops := UInt64.toNat_ofNat_of_lt' hw
    have hne : UInt64.ofNat gops ≠ 0 := fun h => by
      rw [h] at hgops
      exact Nat.ne_of_gt hg hgops.symm
    obtain ⟨w, hplan, hblocks, hidle, hstops⟩ := WordPartition.plan?_eq hc hne hn
    rw [hgops] at hblocks hidle
    exact ⟨w, hplan, hblocks, hidle, hstops⟩

/-- The most groups that a word counts, over two channels of which one stands twice. -/
theorem partition_laws_largest :
    let channels : List Channel := [⟨7⟩, ⟨0⟩, ⟨7⟩]
    let gops := UInt64.size - 1
    ∃ p, plan gops channels = .ok p ∧ Contiguous 0 gops p.blocks ∧ p.rounds = gops / 3 ∧
      (WordPartition.plan? (.ofNat gops) channels).isSome = true := by
  intro channels gops
  obtain ⟨p, hp, -, hcontiguous, -, -, -, -, -, hrounds, hwords⟩ :=
    partition_laws gops channels (by decide) (by decide)
  obtain ⟨w, hw, -⟩ := hwords (by decide) (by decide)
  refine ⟨p, hp, hcontiguous, hrounds.trans (by decide), ?_⟩
  rw [hw]
  rfl

end Partition

end StreamFanout
