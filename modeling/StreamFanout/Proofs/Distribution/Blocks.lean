import StreamFanout.Distribution.Lane
import StreamFanout.Proofs.Stream.KeyframeRuns

/-!
The blocks of a partition follow each other without a gap, from the first group to the last, so
the lanes cut along them hold every group of the stream once and in order.
-/
namespace StreamFanout

/-- The blocks cover the groups from `s` to `e`, each starting where the one before it stops. -/
def Contiguous (s e : Nat) : List Block → Prop
  | [] => s = e
  | b :: bs => b.start = s ∧ Contiguous b.stop e bs

theorem Contiguous.le {s e : Nat} {bs : List Block} (h : Contiguous s e bs) : s ≤ e := by
  induction bs generalizing s with
  | nil => exact Nat.le_of_eq h
  | cons b bs ih =>
    have hs := h.1
    have he := ih h.2
    unfold Block.stop at he
    omega

theorem Contiguous.stop_le {s e : Nat} {bs : List Block} (h : Contiguous s e bs) :
    ∀ b ∈ bs, b.stop ≤ e := by
  induction bs generalizing s with
  | nil => simp
  | cons b bs ih =>
    intro c hc
    rcases List.mem_cons.mp hc with rfl | hc
    · exact h.2.le
    · exact ih h.2 c hc

/-- No two blocks overlap. -/
theorem Contiguous.pairwise {s e : Nat} {bs : List Block} (h : Contiguous s e bs) :
    bs.Pairwise fun b b' => b.stop ≤ b'.start := by
  have start_le {s e : Nat} {bs : List Block} (h : Contiguous s e bs) :
      ∀ b ∈ bs, s ≤ b.start := by
    induction bs generalizing s with
    | nil => simp
    | cons b bs ih =>
      intro c hc
      have hs := h.1
      rcases List.mem_cons.mp hc with rfl | hc
      · exact Nat.le_of_eq hs.symm
      · have hle := ih h.2 c hc
        unfold Block.stop at hle
        omega
  induction bs generalizing s with
  | nil => exact List.Pairwise.nil
  | cons b bs ih => exact List.pairwise_cons.mpr ⟨start_le h.2, ih h.2⟩

/-- What lies between the ends of a row of blocks lies between the ends of one of them. -/
theorem Contiguous.exists_mem {f : Nat → Nat} {s e m : Nat} {bs : List Block}
    (h : Contiguous s e bs) (hs : f s ≤ m) (he : m < f e) :
    ∃ b ∈ bs, f b.start ≤ m ∧ m < f b.stop := by
  induction bs generalizing s with
  | nil =>
    have hse : s = e := h
    rw [hse] at hs
    exact absurd he (Nat.not_lt.mpr hs)
  | cons b bs ih =>
    by_cases hm : m < f b.stop
    · exact ⟨b, List.mem_cons_self, h.1 ▸ hs, hm⟩
    · obtain ⟨c, hc, hmc⟩ := ih h.2 (Nat.le_of_not_lt hm)
      exact ⟨c, List.mem_cons_of_mem _ hc, hmc⟩

/-- The lengths of a row of blocks add up to the distance that it covers. -/
theorem Contiguous.sumOf_length {s e : Nat} {bs : List Block} (h : Contiguous s e bs) :
    s + sumOf Block.length bs = e := by
  induction bs generalizing s with
  | nil => exact h
  | cons b bs ih =>
    have hs : b.start = s := h.1
    have he := ih h.2
    rw [Block.stop, hs] at he
    rw [sumOf_cons, ← Nat.add_assoc, he]

/-- Where no block has more than one group, each group fills a block. -/
theorem sumOf_length_add_countP {bs : List Block} (h : ∀ b ∈ bs, b.length ≤ 1) :
    sumOf Block.length bs + bs.countP (·.length = 0) = bs.length := by
  induction bs with
  | nil => rfl
  | cons b bs ih =>
    have hb := h b List.mem_cons_self
    have hbs := ih fun c hc => h c (List.mem_cons_of_mem _ hc)
    rw [sumOf_cons, List.countP_cons, List.length_cons]
    by_cases hz : b.length = 0
    · simp only [hz, decide_true, if_true]
      omega
    · simp only [hz, decide_false, Bool.false_eq_true, if_false]
      omega

namespace Partition

/-- Where the block of the `i`-th of `n` channels starts, or for `i = n` where the last stops. -/
def startAt (gops n i : Nat) : Nat :=
  if gops < n then min i gops else if i = n then gops else i * (gops / n)

theorem start_blockAt {gops n i : Nat} (hi : i < n) (c : Channel) :
    (blockAt gops n i c).start = startAt gops n i := by
  unfold blockAt startAt
  by_cases h : gops < n
  · simp [h]
  · simp [h, Nat.ne_of_lt hi]

theorem stop_blockAt {gops n i : Nat} (hi : i < n) (c : Channel) :
    (blockAt gops n i c).stop = startAt gops n (i + 1) := by
  unfold blockAt startAt Block.stop
  by_cases h : gops < n
  · by_cases hg : i < gops
    · simp [h, hg]
      omega
    · simp [h, hg]
      omega
  · by_cases hl : i + 1 = n
    · have hle : i * (gops / n) ≤ gops :=
        Nat.le_trans (Nat.mul_le_mul_right _ (Nat.le_of_lt hi)) (Nat.mul_div_le gops n)
      simp [h, hl, Nat.add_sub_cancel' hle]
    · simp [h, hl, Nat.add_mul]

theorem channel_blockAt (gops n i : Nat) (c : Channel) : (blockAt gops n i c).channel = c := by
  unfold blockAt
  split <;> rfl

theorem contiguous_mapIdx {gops n k : Nat} {cs : List Channel} (h : k + cs.length = n) :
    Contiguous (startAt gops n k) gops (cs.mapIdx fun i => blockAt gops n (k + i)) := by
  induction cs generalizing k with
  | nil =>
    obtain rfl : k = n := h
    show startAt gops k k = gops
    unfold startAt
    by_cases hg : gops < k
    · simp [hg, Nat.min_eq_right (Nat.le_of_lt hg)]
    · simp [hg]
  | cons c cs ih =>
    have hk : k < n := by
      rw [← h, List.length_cons]
      omega
    rw [List.mapIdx_cons]
    refine ⟨start_blockAt hk c, ?_⟩
    have ht := ih (k := k + 1) (by rw [← h, List.length_cons]; omega)
    rw [← stop_blockAt hk c] at ht
    simpa only [Nat.add_zero, Nat.add_assoc, Nat.add_comm 1] using ht

def blocksOf (gops : Nat) (channels : List Channel) : List Block :=
  channels.mapIdx (blockAt gops channels.length)

theorem contiguous_blocksOf {gops : Nat} {channels : List Channel} (h : channels ≠ []) :
    Contiguous 0 gops (blocksOf gops channels) := by
  have hs : startAt gops channels.length 0 = 0 := by
    have hl := List.length_pos_iff.mpr h
    unfold startAt
    by_cases hg : gops < channels.length
    · simp [hg]
    · simp [hg, Nat.ne_of_lt hl]
  have hc : Contiguous (startAt gops channels.length 0) gops
      (channels.mapIdx fun i => blockAt gops channels.length (0 + i)) :=
    contiguous_mapIdx (Nat.zero_add _)
  rw [hs] at hc
  unfold blocksOf
  simpa only [Nat.zero_add] using hc

@[simp] theorem map_channel_blocksOf (gops : Nat) (channels : List Channel) :
    (blocksOf gops channels).map Block.channel = channels := by
  unfold blocksOf
  apply List.ext_getElem
  · simp
  · intro i h₁ h₂
    simp [channel_blockAt]

def across (gops : Nat) (channels : List Channel) : Partition :=
  ⟨blocksOf gops channels, channels.length - gops⟩

theorem plan_ok {gops : Nat} {channels : List Channel} (hc : channels ≠ []) (hg : gops ≠ 0) :
    plan gops channels = .ok (across gops channels) := by
  rw [plan, if_neg hc, if_neg hg]
  rfl

section

variable {gops n i : Nat} {channels : List Channel} {b : Block}

def lengthAt (gops n i : Nat) : Nat :=
  if gops < n then if i < gops then 1 else 0
  else gops / n + if i + 1 = n then gops % n else 0

theorem length_blockAt (gops n i : Nat) (c : Channel) :
    (blockAt gops n i c).length = lengthAt gops n i := by
  unfold blockAt lengthAt
  by_cases h : gops < n
  · simp only [h, if_true]
  · simp only [h, if_false]
    by_cases hl : i + 1 = n
    · -- All blocks but the last take `n - 1` times the quotient.
      have hdiv := Nat.div_add_mod gops n
      have hmul : n * (gops / n) = i * (gops / n) + gops / n := by
        rw [← hl, Nat.succ_mul]
      simp only [hl, if_true]
      exact Nat.sub_eq_of_eq_add (by rw [Nat.add_right_comm, Nat.add_comm (gops / n), ← hmul, hdiv])
    · simp only [hl, if_false, Nat.add_zero]

theorem getElem?_blocksOf (h : (blocksOf gops channels)[i]? = some b) :
    i < channels.length ∧ b.length = lengthAt gops channels.length i := by
  rw [blocksOf, List.getElem?_mapIdx] at h
  obtain ⟨c, hc, rfl⟩ := Option.map_eq_some_iff.mp h
  exact ⟨(List.getElem?_eq_some_iff.mp hc).1, length_blockAt ..⟩

/-- The channels that the groups do not reach are those with an empty block. -/
theorem idle_across (gops : Nat) (hc : channels ≠ []) :
    (across gops channels).idle = (across gops channels).blocks.countP (·.length = 0) := by
  simp only [across]
  by_cases h : gops < channels.length
  · have hle : ∀ b ∈ blocksOf gops channels, b.length ≤ 1 := by
      intro b hb
      obtain ⟨i, hi⟩ := List.mem_iff_getElem?.mp hb
      rw [(getElem?_blocksOf hi).2, lengthAt, if_pos h]
      split <;> decide
    have hcontiguous : Contiguous 0 gops (blocksOf gops channels) := contiguous_blocksOf hc
    have hsum := hcontiguous.sumOf_length
    have hcount := sumOf_length_add_countP hle
    have hlen : (blocksOf gops channels).length = channels.length := List.length_mapIdx
    omega
  · have hpos : 0 < gops / channels.length :=
      Nat.div_pos (Nat.le_of_not_lt h) (List.length_pos_iff.mpr hc)
    rw [Nat.sub_eq_zero_of_le (Nat.le_of_not_lt h), eq_comm, List.countP_eq_zero]
    intro b hb hz
    obtain ⟨i, hi⟩ := List.mem_iff_getElem?.mp hb
    have hlen := (getElem?_blocksOf hi).2
    rw [of_decide_eq_true hz, lengthAt, if_neg h] at hlen
    omega

end

theorem rounds_le_iff {p : Partition} {m : Nat} :
    p.rounds ≤ m ↔ ∀ b ∈ p.blocks, b.length ≤ m := by
  have fold (bs : List Block) (r : Nat) :
      bs.foldl (fun r b => max r b.length) r ≤ m ↔ r ≤ m ∧ ∀ b ∈ bs, b.length ≤ m := by
    induction bs generalizing r with
    | nil => simp
    | cons b bs ih => rw [List.foldl_cons, ih, Nat.max_le, List.forall_mem_cons, and_assoc]
  exact (fold p.blocks 0).trans (and_iff_right (Nat.zero_le m))

/-- The first block takes the first group, so the others start after it. -/
theorem start_pos {gops : Nat} {channels : List Channel} (hg : 0 < gops) :
    ∀ b ∈ (blocksOf gops channels).tail, 0 < b.start := by
  cases channels with
  | nil => simp [blocksOf]
  | cons c cs =>
    intro b hb
    obtain ⟨j, hj, rfl⟩ : ∃ j, ∃ h : j < cs.length,
        blockAt gops (cs.length + 1) (j + 1) cs[j] = b := by
      simpa [blocksOf, List.mapIdx_cons, List.mem_mapIdx] using hb
    have hn : j + 1 < cs.length + 1 := Nat.succ_lt_succ hj
    rw [start_blockAt hn, startAt]
    by_cases h : gops < cs.length + 1
    · rw [if_pos h]
      omega
    · rw [if_neg h, if_neg (Nat.ne_of_lt hn)]
      have hd : 0 < gops / (cs.length + 1) := Nat.div_pos (Nat.le_of_not_lt h) (Nat.succ_pos _)
      exact Nat.mul_pos (Nat.succ_pos j) hd

end Partition

/-- Taken in the order of the blocks, what a row of them covers of a list is the list. -/
theorem Contiguous.flatMap_cut {α : Type} {s : Nat} {bs : List Block} {xs : List α}
    (h : Contiguous s xs.length bs) :
    (bs.flatMap fun b => (xs.drop b.start).take b.length) = xs.drop s := by
  induction bs generalizing s with
  | nil =>
    have hs : s = xs.length := h
    rw [List.flatMap_nil, hs, List.drop_length]
  | cons b bs ih =>
    have hs : b.start = s := h.1
    rw [List.flatMap_cons, ih h.2, Block.stop, ← List.drop_drop, hs, List.take_append_drop]

/-- The groups of a stream that a block covers. -/
def Block.share (gops : List Gop) (b : Block) : List Gop :=
  (gops.drop b.start).take b.length

theorem Block.share_sublist (b : Block) (gops : List Gop) : (b.share gops).Sublist gops :=
  (List.take_sublist _ _).trans (List.drop_sublist _ _)

theorem Contiguous.flatMap_share {s : Nat} {bs : List Block} {gops : List Gop}
    (h : Contiguous s gops.length bs) : bs.flatMap (Block.share gops) = gops.drop s :=
  h.flatMap_cut

namespace Lane

/-- A lane as it is cut: it has all groups of its block, and nothing has happened to it yet. -/
def fresh (gops : List Gop) (b : Block) : Lane where
  block := b
  queue := b.share gops

theorem length_queue_fresh {gops : List Gop} {b : Block} (h : b.stop ≤ gops.length) :
    (fresh gops b).queue.length = b.length := by
  unfold Block.stop at h
  simp only [fresh, Block.share, List.length_take, List.length_drop]
  omega

theorem cut_eq {s e : Nat} {bs : List Block} {gops : List Gop} (h : Contiguous s e bs) :
    cut bs (gops.drop s) = bs.map (fresh gops) := by
  induction bs generalizing s with
  | nil => rfl
  | cons b bs ih =>
    have hs : b.start = s := h.1
    have ht := ih h.2
    rw [Block.stop, ← List.drop_drop, hs] at ht
    rw [cut, ht, List.map_cons, fresh, Block.share, hs]

end Lane

end StreamFanout
