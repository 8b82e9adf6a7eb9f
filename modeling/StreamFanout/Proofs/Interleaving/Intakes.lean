import Mathlib.Data.List.Nodup
import Mathlib.Data.List.Pairwise
import StreamFanout.Proofs.Interleaving.Outcomes

/-!
What the ends of stream take. Accepted units are numbered in order of arrival; each end of stream
takes the next interval of numbers, and the blocks of its channels divide that interval.
-/
namespace StreamFanout

/-- What an end of stream takes: some groups for some channels. -/
structure Intake where
  /-- The number of its first unit: how many units were taken before. -/
  first : Nat
  gops : List Gop
  channels : List Channel

namespace Intake

def size (t : Intake) : Nat :=
  Gop.unitCount t.gops

def stop (t : Intake) : Nat :=
  t.first + t.size

def blocks (t : Intake) : List Block :=
  Partition.blocksOf t.gops.length t.channels

def firstOf (t : Intake) (b : Block) : Nat :=
  t.first + Gop.unitCount (t.gops.take b.start)

def stopOf (t : Intake) (b : Block) : Nat :=
  t.firstOf b + Gop.unitCount (b.share t.gops)

theorem stopOf_eq (t : Intake) (b : Block) :
    t.stopOf b = t.first + Gop.unitCount (t.gops.take b.stop) := by
  have hsplit : t.gops.take b.stop = t.gops.take b.start ++ b.share t.gops := by
    rw [Block.stop, List.take_add, Block.share]
  rw [hsplit, Gop.unitCount_append, stopOf, firstOf, Nat.add_assoc]

theorem first_le_firstOf (t : Intake) (b : Block) : t.first ≤ t.firstOf b :=
  Nat.le_add_right _ _

theorem stopOf_le_stop (t : Intake) (b : Block) : t.stopOf b ≤ t.stop := by
  rw [stopOf_eq, stop, size]
  have hall := Gop.unitCount_take_le t.gops (Nat.le_max_right t.gops.length b.stop)
  rw [List.take_of_length_le (Nat.le_max_left t.gops.length b.stop)] at hall
  exact Nat.add_le_add_left hall _

/-- A block stops where a later one has not begun yet. -/
theorem stopOf_le_firstOf (t : Intake) {b b' : Block} (h : b.stop ≤ b'.start) :
    t.stopOf b ≤ t.firstOf b' := by
  rw [stopOf_eq, firstOf]
  exact Nat.add_le_add_left (Gop.unitCount_take_le _ h) _

/-- The unit at a place of a block, by its number in the intake. -/
theorem getElem?_share (t : Intake) (b : Block) {j : Nat}
    (hj : j < Gop.unitCount (b.share t.gops)) :
    (Gop.flatten t.gops)[Gop.unitCount (t.gops.take b.start) + j]? =
      (Gop.flatten (b.share t.gops))[j]? := by
  have hsplit : t.gops = t.gops.take b.start ++ (b.share t.gops ++ t.gops.drop b.stop) := by
    rw [Block.share, Block.stop, ← List.drop_drop, List.take_append_drop, List.take_append_drop]
  have hflat : Gop.flatten t.gops = Gop.flatten (t.gops.take b.start) ++
      (Gop.flatten (b.share t.gops) ++ Gop.flatten (t.gops.drop b.stop)) := by
    conv => lhs; rw [hsplit]
    rw [Gop.flatten, List.flatMap_append, List.flatMap_append]
    rfl
  rw [hflat, ← Gop.length_flatten, List.getElem?_append_right (Nat.le_add_right _ _),
    Nat.add_sub_cancel_left, List.getElem?_append_left]
  rwa [Gop.length_flatten]

end Intake

namespace Intake

variable {t : Intake} {b b' : Block}

theorem contiguous_blocks (hb : b ∈ t.blocks) : Contiguous 0 t.gops.length t.blocks := by
  apply Partition.contiguous_blocksOf
  intro hnil
  rw [blocks, hnil] at hb
  cases hb

theorem eq_of_channel_eq (hd : t.channels.Nodup) (hb : b ∈ t.blocks) (hb' : b' ∈ t.blocks)
    (h : b.channel = b'.channel) : b = b' := by
  rw [← Partition.map_channel_blocksOf t.gops.length t.channels] at hd
  exact List.inj_on_of_nodup_map hd hb hb' h

/-- Different blocks have no number in common. -/
theorem apart (hb : b ∈ t.blocks) (hb' : b' ∈ t.blocks) (h : b ≠ b') :
    t.stopOf b ≤ t.firstOf b' ∨ t.stopOf b' ≤ t.firstOf b := by
  have hpair : t.blocks.Pairwise fun b b' => b.stop ≤ b'.start ∨ b'.stop ≤ b.start :=
    (contiguous_blocks hb).pairwise.imp .inl
  have : Std.Symm fun b b' : Block => b.stop ≤ b'.start ∨ b'.stop ≤ b.start :=
    ⟨fun _ _ => Or.symm⟩
  exact (hpair.forall hb hb' h).imp t.stopOf_le_firstOf t.stopOf_le_firstOf

theorem exists_block (hc : t.channels ≠ []) {m : Nat} (hlo : t.first ≤ m) (hhi : m < t.stop) :
    ∃ b ∈ t.blocks, t.firstOf b ≤ m ∧ m < t.stopOf b := by
  have hlast : m < t.first + Gop.unitCount (t.gops.take t.gops.length) := by
    rwa [List.take_length]
  obtain ⟨b, hb, hm⟩ := (Partition.contiguous_blocksOf hc).exists_mem
    (f := fun g => t.first + Gop.unitCount (t.gops.take g)) hlo hlast
  refine ⟨b, hb, hm.1, ?_⟩
  rw [stopOf_eq]
  exact hm.2

end Intake

namespace Interleaving

def intake? (i : Interleaving) (first : Nat) : Step → Option Intake
  | .endStream => some ⟨first, i.fanout.grouping.groups, i.fanout.live⟩
  | _ => none

/-- What the ends of stream of a run take, when `first` units were taken before it. -/
def intakes (i : Interleaving) (first : Nat) : List Step → List Intake
  | [] => []
  | s :: steps =>
    let taken := (i.intake? first s).toList
    taken ++ intakes (i.step s).value.2 (first + sumOf Intake.size taken) steps

variable {i : Interleaving} {n first : Nat}

theorem intakes_append (i : Interleaving) (first : Nat) (xs ys : List Step) :
    i.intakes first (xs ++ ys) = i.intakes first xs ++
      (i.after xs).intakes (first + sumOf Intake.size (i.intakes first xs)) ys := by
  induction xs generalizing i first with
  | nil => rfl
  | cons s xs ih =>
    rw [List.cons_append, intakes, ih, intakes, List.append_assoc, sumOf_append, Nat.add_assoc]
    rfl

theorem length_intakes (i : Interleaving) (first : Nat) (steps : List Step) :
    i.streamsEnded + (i.intakes first steps).length = (i.after steps).streamsEnded := by
  induction steps generalizing i first with
  | nil => rfl
  | cons s steps ih =>
    have hs := ih (i.step s).value.2 (first + sumOf Intake.size (i.intake? first s).toList)
    rw [(i.takes_step s).streamsEnded_eq] at hs
    have hlen : (i.intake? first s).toList.length = if s = .endStream then 1 else 0 := by
      cases s <;> rfl
    rw [intakes, List.length_append, hlen]
    show _ = ((i.step s).value.2.after steps).streamsEnded
    omega

theorem intakes_endStream (config : Config) (before during : List Step) :
    ((fresh config).intakes 0 (before ++ .endStream :: during))[((fresh config).after
        before).streamsEnded]? =
      some ⟨sumOf Intake.size ((fresh config).intakes 0 before),
        ((fresh config).after before).fanout.grouping.groups,
        ((fresh config).after before).fanout.live⟩ := by
  have hlen := length_intakes (fresh config) 0 before
  rw [show (fresh config).streamsEnded = 0 from rfl, Nat.zero_add] at hlen
  rw [intakes_append, ← hlen, List.getElem?_append_right (Nat.le_refl _), Nat.sub_self,
    Nat.zero_add]
  rfl

/-- Each intake begins where the one before it stops. -/
theorem first_intakes (i : Interleaving) (first : Nat) (steps : List Step) {k : Nat} {t : Intake}
    (ht : (i.intakes first steps)[k]? = some t) :
    t.first = first + sumOf Intake.size ((i.intakes first steps).take k) := by
  induction steps generalizing i first k with
  | nil => cases ht
  | cons s steps ih =>
    rw [intakes] at ht ⊢
    cases hs : i.intake? first s with
    | none =>
      rw [hs] at ht
      exact ih _ _ ht
    | some t₀ =>
      rw [hs] at ht
      have hfirst : t₀.first = first := by
        cases s with
        | endStream => cases hs; rfl
        | _ => cases hs
      cases k with
      | zero =>
        cases ht
        exact hfirst
      | succ k =>
        have hk := ih _ _ ht
        simpa [Nat.add_assoc] using hk

theorem stop_le_first (i : Interleaving) (first : Nat) (steps : List Step) {j k : Nat}
    {t t' : Intake} (hjk : j < k) (ht : (i.intakes first steps)[j]? = some t)
    (ht' : (i.intakes first steps)[k]? = some t') : t.stop ≤ t'.first := by
  rw [first_intakes i first steps ht', Intake.stop, first_intakes i first steps ht]
  have hsplit : (i.intakes first steps).take k =
      (i.intakes first steps).take j ++ ((i.intakes first steps).drop j).take (k - j) := by
    rw [← List.take_add, Nat.add_sub_cancel' (Nat.le_of_lt hjk)]
  have hhead : ((i.intakes first steps).drop j).take (k - j) =
      t :: ((i.intakes first steps).drop (j + 1)).take (k - j - 1) := by
    obtain ⟨hlt, rfl⟩ := List.getElem?_eq_some_iff.mp ht
    rw [List.drop_eq_getElem_cons hlt, List.take_cons (Nat.sub_pos_of_lt hjk)]
  rw [hsplit, hhead, sumOf_append, sumOf_cons]
  omega

/-- The units of earlier streams are those that were taken. -/
theorem sumOf_size_intakes (config : Config) (steps : List Step) :
    sumOf Intake.size ((fresh config).intakes 0 steps) =
      (endedStreams [] steps).flatten.length := by
  have run (i : Interleaving) (first : Nat) (us : List AccessUnit)
      (hg : i.fanout.grouping.Groups (us.map AccessUnit.marked)) :
      sumOf Intake.size (i.intakes first steps) = (endedStreams us steps).flatten.length := by
    induction steps generalizing i first us with
    | nil => rfl
    | cons s steps ih =>
      have hs := ih _ (first + sumOf Intake.size (i.intake? first s).toList) _ (groups_step hg s)
      rw [intakes, endedStreams, sumOf_append, hs, List.flatten_append, List.length_append]
      congr 1
      cases s with
      | endStream =>
        have hunits := congrArg List.length hg.units_eq
        rw [Grouping.units, Gop.length_flatten, List.length_map] at hunits
        simpa [intake?, Intake.size] using hunits
      | _ => rfl
  exact run _ 0 [] Grouping.groups_empty

/-- An end of stream takes all units that were accepted since the one before it. -/
theorem intake_units (config : Config) (before during : List Step) {t : Intake}
    (ht : ((fresh config).intakes 0 (before ++ .endStream :: during))[((fresh config).after
      before).streamsEnded]? = some t) :
    t.stop = (arrivals before).length ∧
      Gop.flatten t.gops =
        (((arrivals (before ++ .endStream :: during)).drop t.first).take t.size).map
          AccessUnit.marked := by
  rw [intakes_endStream, Option.some.injEq] at ht
  subst ht
  have hunits := (groups_after config before).units_eq
  rw [Grouping.units] at hunits
  have hsize : Gop.unitCount ((fresh config).after before).fanout.grouping.groups =
      (openStream before).length := by
    rw [← Gop.length_flatten, hunits, List.length_map]
  have harrivals := flatten_endedStreams [] before
  rw [List.nil_append] at harrivals
  have hall : arrivals (before ++ .endStream :: during) =
      arrivals before ++ arrivals (.endStream :: during) := List.flatMap_append
  constructor
  · rw [Intake.stop, Intake.size, hsize, sumOf_size_intakes, ← List.length_append]
    exact congrArg List.length harrivals
  · rw [Intake.size, hsize, sumOf_size_intakes, hall, ← harrivals, List.append_assoc,
      List.drop_left, hunits]
    exact congrArg _ List.take_left.symm

/-- Each intake of a run is that of an end of stream. -/
theorem exists_intake {config : Config} {steps : List Step} {n : Nat}
    (hn : n < ((fresh config).after steps).streamsEnded) :
    ∃ before during t, steps = before ++ .endStream :: during ∧
      n = ((fresh config).after before).streamsEnded ∧
      ((fresh config).intakes 0 steps)[n]? = some t ∧
      t.gops = ((fresh config).after before).fanout.grouping.groups ∧
      t.channels = ((fresh config).after before).fanout.live ∧
      t.blocks = ((fresh config).after before).fanout.blocks := by
  obtain ⟨before, during, rfl, rfl, -⟩ :=
    exists_endStream (i := fresh config) [] (Nat.zero_le n) hn
  exact ⟨before, during, _, rfl, rfl, intakes_endStream config before during, rfl, rfl, rfl⟩

theorem nodup_channels {config : Config} {steps : List Step} {t : Intake}
    (ht : ((fresh config).intakes 0 steps)[n]? = some t) : t.channels.Nodup := by
  have hlen := length_intakes (fresh config) 0 steps
  have hn := (List.getElem?_eq_some_iff.mp ht).1
  rw [show (fresh config).streamsEnded = 0 from rfl, Nat.zero_add] at hlen
  obtain ⟨before, during, t', rfl, -, ht', -, hchannels, -⟩ := exists_intake (hlen ▸ hn)
  cases ht.symm.trans ht'
  rw [hchannels]
  exact ((sound_fresh config).after before).live_nodup

/-- A unit of an intake, by its number in the whole run. -/
theorem getElem?_units {config : Config} {before during : List Step} {t : Intake}
    (ht : ((fresh config).intakes 0 (before ++ .endStream :: during))[((fresh config).after
      before).streamsEnded]? = some t) {x : Nat} {u : AccessUnit}
    (hu : (Gop.flatten t.gops)[x]? = some u) :
    ((arrivals (before ++ .endStream :: during)).map AccessUnit.marked)[t.first + x]? = some u := by
  rw [(intake_units config before during ht).2, List.getElem?_map, List.getElem?_take] at hu
  rw [List.getElem?_map]
  split at hu
  · rwa [List.getElem?_drop] at hu
  · cases hu

/-- What is seen of a pass in a run is what is seen of it since the end of its stream. -/
theorem calls_of_stream (config : Config) (before during : List Step) :
    (fresh config).calls ((fresh config).after before).streamsEnded
        (before ++ .endStream :: during) =
      ((fresh config).after before).calls ((fresh config).after before).streamsEnded
        (.endStream :: during) := by
  rw [calls_append, calls_before (sound_fresh config), List.nil_append]

theorem answers_of_stream (config : Config) (before during : List Step) :
    (fresh config).answers ((fresh config).after before).streamsEnded
        (before ++ .endStream :: during) =
      ((fresh config).after before).answers ((fresh config).after before).streamsEnded
        (.endStream :: during) := by
  rw [answers, stops_append, stops_before (sound_fresh config), List.nil_append]
  rfl

theorem shown_of_stream {config : Config} {before during : List Step} {result : StepResult}
    (hm : result ∈ (fresh config).shown (before ++ .endStream :: during))
    (hp : result.pass? = some ((fresh config).after before).streamsEnded) :
    result ∈ ((fresh config).after before).shown (.endStream :: during) := by
  rw [shown, trace_append, List.map_append] at hm
  rcases List.mem_append.mp hm with hm | hm
  · exact absurd (lt_of_mem_shown (sound_fresh config) hm hp) (Nat.lt_irrefl _)
  · exact hm

end Interleaving

end StreamFanout
