import StreamFanout.Proofs.Distribution.Blocks

/-!
Partitions in 64-bit words. The groups and channels are counted in words, and an operation whose
result is no word comes to nothing. Where the counts are words nothing overflows: the word
computation goes through and gives the partition.
-/
namespace StreamFanout

namespace Word

def add? (a b : UInt64) : Option UInt64 :=
  if a.toNat + b.toNat < UInt64.size then some (a + b) else none

def sub? (a b : UInt64) : Option UInt64 :=
  if b ≤ a then some (a - b) else none

def mul? (a b : UInt64) : Option UInt64 :=
  if a.toNat * b.toNat < UInt64.size then some (a * b) else none

def div? (a b : UInt64) : Option UInt64 :=
  if b = 0 then none else some (a / b)

/-- The number of items of a list, as far as words go. -/
def length? {α : Type} (xs : List α) : Option UInt64 :=
  if xs.length < UInt64.size then some (.ofNat xs.length) else none

variable {a b : UInt64}

theorem add?_eq (h : a.toNat + b.toNat < UInt64.size) :
    ∃ w, add? a b = some w ∧ w.toNat = a.toNat + b.toNat :=
  ⟨a + b, if_pos h, by rw [UInt64.toNat_add]; exact Nat.mod_eq_of_lt h⟩

theorem sub?_eq (h : b.toNat ≤ a.toNat) :
    ∃ w, sub? a b = some w ∧ w.toNat = a.toNat - b.toNat :=
  ⟨a - b, if_pos (UInt64.le_iff_toNat_le.mpr h),
    UInt64.toNat_sub_of_le a b (UInt64.le_iff_toNat_le.mpr h)⟩

theorem mul?_eq (h : a.toNat * b.toNat < UInt64.size) :
    ∃ w, mul? a b = some w ∧ w.toNat = a.toNat * b.toNat :=
  ⟨a * b, if_pos h, by rw [UInt64.toNat_mul]; exact Nat.mod_eq_of_lt h⟩

theorem div?_eq (h : 0 < b.toNat) :
    ∃ w, div? a b = some w ∧ w.toNat = a.toNat / b.toNat := by
  have hb : b ≠ 0 := by
    rintro rfl
    exact absurd h (Nat.lt_irrefl 0)
  exact ⟨a / b, if_neg hb, UInt64.toNat_div a b⟩

theorem length?_eq {α : Type} {xs : List α} (h : xs.length < UInt64.size) :
    ∃ w, length? xs = some w ∧ w.toNat = xs.length :=
  ⟨.ofNat xs.length, if_pos h, UInt64.toNat_ofNat_of_lt' h⟩

end Word

structure WordBlock where
  channel : Channel
  start : UInt64
  length : UInt64

namespace WordBlock

def block (w : WordBlock) : Block where
  channel := w.channel
  start := w.start.toNat
  length := w.length.toNat

def stop? (w : WordBlock) : Option UInt64 :=
  Word.add? w.start w.length

theorem stop?_eq {w : WordBlock} (h : w.block.stop < UInt64.size) :
    ∃ e, w.stop? = some e ∧ e.toNat = w.block.stop :=
  Word.add?_eq h

end WordBlock

structure WordPartition where
  blocks : List WordBlock
  idle : UInt64

namespace WordPartition

/-- The block of the `i`-th of `n` channels. -/
def blockAt? (gops n i : UInt64) (channel : Channel) : Option WordBlock :=
  if gops < n then
    some ⟨channel, min i gops, if i < gops then 1 else 0⟩
  else do
    let base ← Word.div? gops n
    let last ← Word.sub? n 1
    let start ← Word.mul? i base
    let length ← if i = last then Word.sub? gops start else some base
    some ⟨channel, start, length⟩

/-- The blocks of the `i`-th and the later of `n` channels. -/
def blocksFrom? (gops n i : UInt64) : List Channel → Option (List WordBlock)
  | [] => some []
  | c :: cs => do
    let block ← blockAt? gops n i c
    let blocks ← blocksFrom? gops n (i + 1) cs
    some (block :: blocks)

def idle? (gops n : UInt64) : Option UInt64 :=
  if gops < n then Word.sub? n gops else some 0

/-- Partitions `gops` groups among the channels. -/
def plan? (gops : UInt64) (channels : List Channel) : Option (Except FanoutError WordPartition) :=
  if channels = [] then
    some (.error (.noChannels gops.toNat))
  else if gops = 0 then
    some (.error .noData)
  else do
    let n ← Word.length? channels
    let blocks ← blocksFrom? gops n 0 channels
    let idle ← idle? gops n
    some (.ok ⟨blocks, idle⟩)

variable {gops n i : UInt64}

theorem blockAt?_eq (gops : UInt64) (hi : i < n) (c : Channel) :
    ∃ w, blockAt? gops n i c = some w ∧
      w.block = Partition.blockAt gops.toNat n.toNat i.toNat c := by
  have hi : i.toNat < n.toNat := UInt64.lt_iff_toNat_lt.mp hi
  by_cases hg : gops.toNat < n.toNat
  · refine ⟨⟨c, min i gops, if i < gops then 1 else 0⟩,
      if_pos (UInt64.lt_iff_toNat_lt.mpr hg), ?_⟩
    have hmin : (min i gops).toNat = min i.toNat gops.toNat := by
      simp only [Nat.min_def, ← UInt64.le_iff_toNat_le]
      exact apply_ite UInt64.toNat (i ≤ gops) i gops
    rw [WordBlock.block, Partition.blockAt, if_pos hg]
    simp only [hmin, UInt64.lt_iff_toNat_lt]
    split <;> rfl
  · -- Each start is at most the number of groups, so none of the products overflows.
    have hn : 0 < n.toNat := Nat.zero_lt_of_lt hi
    have hle : i.toNat * (gops.toNat / n.toNat) ≤ gops.toNat :=
      Nat.le_trans (Nat.mul_le_mul_right _ (Nat.le_of_lt hi)) (Nat.mul_div_le _ _)
    obtain ⟨base, hbase, hbase'⟩ := Word.div?_eq (a := gops) hn
    obtain ⟨last, hlast?, hlast'⟩ := Word.sub?_eq (a := n) (b := 1) hn
    obtain ⟨start, hstart, hstart'⟩ := Word.mul?_eq (a := i) (b := base)
      (hbase' ▸ Nat.lt_of_le_of_lt hle gops.toNat_lt_size)
    rw [hbase'] at hstart'
    obtain ⟨rest, hrest, hrest'⟩ := Word.sub?_eq (a := gops) (b := start) (hstart' ▸ hle)
    have hlast : i = last ↔ i.toNat + 1 = n.toNat := by
      have hone : (1 : UInt64).toNat = 1 := rfl
      rw [← UInt64.toNat_inj, hlast', hone]
      omega
    have hblock : blockAt? gops n i c =
        if i = last then some ⟨c, start, rest⟩ else some ⟨c, start, base⟩ := by
      simp only [blockAt?, if_neg (mt UInt64.lt_iff_toNat_lt.mp hg), hbase, hlast?, hstart, hrest,
        Option.bind_eq_bind, Option.bind_some]
    by_cases he : i = last
    · refine ⟨⟨c, start, rest⟩, hblock.trans (if_pos he), ?_⟩
      simp only [WordBlock.block, Partition.blockAt, if_neg hg, if_pos (hlast.mp he), hstart',
        hrest']
    · refine ⟨⟨c, start, base⟩, hblock.trans (if_neg he), ?_⟩
      simp only [WordBlock.block, Partition.blockAt, if_neg hg, if_neg (mt hlast.mpr he), hstart',
        hbase']

/-- Word for word the blocks are those of the partition. -/
theorem blocksFrom?_eq (gops : UInt64) (cs : List Channel) (h : i.toNat + cs.length = n.toNat) :
    ∃ ws, blocksFrom? gops n i cs = some ws ∧ ws.map WordBlock.block =
      cs.mapIdx fun k => Partition.blockAt gops.toNat n.toNat (i.toNat + k) := by
  induction cs generalizing i with
  | nil => exact ⟨[], rfl, rfl⟩
  | cons c cs ih =>
    rw [List.length_cons] at h
    have hn := n.toNat_lt
    have hi : i < n := UInt64.lt_iff_toNat_lt.mpr (by omega)
    have hnext : (i + 1).toNat = i.toNat + 1 := by
      rw [UInt64.toNat_add]
      exact Nat.mod_eq_of_lt (by rw [UInt64.toNat_one]; omega)
    obtain ⟨w, hw, hblock⟩ := blockAt?_eq gops hi c
    obtain ⟨ws, hws, hblocks⟩ := ih (i := i + 1) (by omega)
    refine ⟨w :: ws, ?_, ?_⟩
    · simp only [blocksFrom?, hw, hws, Option.bind_eq_bind, Option.bind_some]
    · rw [List.map_cons, hblock, hblocks, List.mapIdx_cons, hnext]
      simp only [Nat.add_zero, Nat.add_assoc, Nat.add_comm 1]

theorem idle?_eq (gops n : UInt64) :
    ∃ w, idle? gops n = some w ∧ w.toNat = n.toNat - gops.toNat := by
  by_cases h : gops < n
  · rw [idle?, if_pos h]
    exact Word.sub?_eq (Nat.le_of_lt (UInt64.lt_iff_toNat_lt.mp h))
  · have hle := Nat.le_of_not_lt (mt UInt64.lt_iff_toNat_lt.mpr h)
    rw [idle?, if_neg h, Nat.sub_eq_zero_of_le hle]
    exact ⟨0, rfl, rfl⟩

/-- Where the numbers of groups and channels are words, so are all numbers on the way to the
partition. -/
theorem plan?_eq {channels : List Channel} (hc : channels ≠ []) (hg : gops ≠ 0)
    (hn : channels.length < UInt64.size) :
    ∃ w, plan? gops channels = some (.ok w) ∧
      w.blocks.map WordBlock.block = Partition.blocksOf gops.toNat channels ∧
      w.idle.toNat = channels.length - gops.toNat ∧
      ∀ b ∈ w.blocks, ∃ e, b.stop? = some e ∧ e.toNat = b.block.stop := by
  obtain ⟨n, hlength, hn'⟩ := Word.length?_eq hn
  obtain ⟨ws, hws, hblocks⟩ := blocksFrom?_eq gops (n := n) (i := 0) channels
    (by rw [hn']; exact Nat.zero_add _)
  have hblocks : ws.map WordBlock.block = Partition.blocksOf gops.toNat channels := by
    rw [hblocks, hn', Partition.blocksOf]
    simp only [UInt64.toNat_zero, Nat.zero_add]
  obtain ⟨idle, hidle, hidle'⟩ := idle?_eq gops n
  refine ⟨⟨ws, idle⟩, ?_, hblocks, hn' ▸ hidle', fun b hb => WordBlock.stop?_eq ?_⟩
  · rw [plan?, if_neg hc, if_neg hg, hlength]
    simp only [hws, hidle, Option.bind_eq_bind, Option.bind_some]
  · have hmem : b.block ∈ Partition.blocksOf gops.toNat channels := hblocks ▸ List.mem_map_of_mem hb
    exact Nat.lt_of_le_of_lt ((Partition.contiguous_blocksOf hc).stop_le _ hmem)
      gops.toNat_lt_size

end WordPartition

end StreamFanout
