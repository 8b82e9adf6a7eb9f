import StreamFanout.Proofs.Distribution.Dues
import StreamFanout.Proofs.Interleaving.Handovers

/-!
What a report says. It names the blocks of the partition, and as many units for each of them as
the pass has handed to the sink there, which are all units of the block. The pass raises the count
of pushed units by what it reports, and drops none.
-/
namespace StreamFanout

section

variable {s : Nat} {bs : List Block} {gops : List Gop}

/-- Each block of a row starts where the one before it stops. -/
theorem Contiguous.isChain {e : Nat} (h : Contiguous s e bs) :
    bs.IsChain fun b b' => b'.start = b.stop := by
  induction bs generalizing s with
  | nil => exact List.IsChain.nil
  | cons b bs ih =>
    cases bs with
    | nil => exact List.IsChain.singleton b
    | cons b' bs => exact List.IsChain.cons_cons h.2.1 (ih h.2)

/-- The shares of a row of blocks have all units of the groups that it covers. -/
theorem Contiguous.sumOf_unitCount_share (h : Contiguous 0 gops.length bs) :
    sumOf (fun b => Gop.unitCount (b.share gops)) bs = Gop.unitCount gops := by
  have hsum (bs : List Block) : sumOf (fun b => Gop.unitCount (b.share gops)) bs =
      Gop.unitCount (bs.flatMap (Block.share gops)) := by
    induction bs with
    | nil => rfl
    | cons b bs ih => rw [sumOf_cons, ih, List.flatMap_cons, Gop.unitCount_append]
  rw [hsum, h.flatMap_share, List.drop_zero]

theorem sumOf_map {α β : Type} (f : β → Nat) (g : α → β) (xs : List α) :
    sumOf f (xs.map g) = sumOf (fun x => f (g x)) xs := by
  induction xs with
  | nil => rfl
  | cons x xs ih => rw [List.map_cons, sumOf_cons, ih, sumOf_cons]

variable {plan : Partition}

theorem gopCount_fullReport (h : Contiguous 0 gops.length plan.blocks) :
    (fullReport gops plan).gopCount = gops.length := by
  have hlength := h.sumOf_length
  rw [Nat.zero_add] at hlength
  rw [Report.gopCount, fullReport, sumOf_map]
  exact hlength

theorem unitsPushed_fullReport (h : Contiguous 0 gops.length plan.blocks) :
    (fullReport gops plan).unitsPushed = Gop.unitCount gops := by
  rw [Report.unitsPushed, fullReport, sumOf_map]
  exact h.sumOf_unitCount_share

theorem head?_firstGop_fullReport {e : Nat} (h : Contiguous 0 e plan.blocks)
    (hne : plan.blocks ≠ []) :
    (fullReport gops plan).assignments.head?.map Assignment.firstGop = some 0 := by
  rw [fullReport]
  cases hb : plan.blocks with
  | nil => exact absurd hb hne
  | cons b bs =>
    rw [hb] at h
    exact congrArg some h.1

theorem isChain_fullReport {e : Nat} (h : Contiguous s e plan.blocks) :
    (fullReport gops plan).assignments.IsChain
      fun a a' => a'.firstGop = a.firstGop + a.gopCount := by
  rw [fullReport, List.isChain_map]
  exact h.isChain

theorem idle_fullReport (gops : List Gop) {channels : List Channel} (hl : channels ≠ []) :
    (fullReport gops (.across gops.length channels)).idle =
      (fullReport gops (.across gops.length channels)).assignments.countP (·.gopCount = 0) := by
  rw [fullReport, List.countP_map]
  exact Partition.idle_across gops.length hl

end

/-- A pass whose blocks were all accepted has lost nothing. -/
theorem Pass.Settles.whole {gops : List Gop} {plan : Partition} {calls : List SinkCall}
    {answers : List Answer} {lanes : List Lane} (h : Settles gops plan.blocks calls answers lanes)
    (hd : ∀ b ∈ plan.blocks, deliveredOn b.channel calls answers = Gop.flatten (b.share gops)) :
    (Progress.finished plan lanes).Whole gops plan := by
  refine ⟨rfl, ⟨h.blocks_eq, h.drained⟩, List.nodup_nil, nofun,
    fun c => deliveredOn c calls answers, h.tallied, fun b hb _ => ?_⟩
  rw [Progress.outstanding_finished h.drained, List.append_nil]
  exact hd b hb

namespace Interleaving

/-- A step of the `n`-th pass: the one that ends its stream, or one that is about the pass. -/
def Concerns (i : Interleaving) (n : Nat) (s : Step) : Prop :=
  s.pass? = some n ∨ s = .endStream ∧ i.streamsEnded = n

instance (i : Interleaving) (n : Nat) (s : Step) : Decidable (i.Concerns n s) :=
  inferInstanceAs (Decidable (_ ∨ _))

/-- How far a step raises a counter, if it is one of the `n`-th pass. -/
def rise (counter : Counters → Nat) (n : Nat) (i : Interleaving) (s : Step) : Int :=
  if i.Concerns n s then
    (counter (i.step s).value.2.fanout.counters : Int) - counter i.fanout.counters
  else 0

def raised (counter : Counters → Nat) (n : Nat) (i : Interleaving) : List Step → Int
  | [] => 0
  | s :: steps => i.rise counter n s + raised counter n (i.step s).value.2 steps

variable {i : Interleaving} {n : Nat} {counter : Counters → Nat} {s : Step}
  {r : StepResult × Interleaving} {result : Except FanoutError Report}

theorem raised_append (i : Interleaving) (xs ys : List Step) :
    i.raised counter n (xs ++ ys) = i.raised counter n xs + (i.after xs).raised counter n ys := by
  induction xs generalizing i with
  | nil => exact (Int.zero_add _).symm
  | cons s xs ih =>
    rw [List.cons_append, raised, raised, ih, Int.add_assoc]
    rfl

/-- A pass that does not end with a step raises no counter. -/
theorem rise_eq_zero (he : ∀ result, (i.step s).value.1 ≠ .ended n result) :
    i.rise counter n s = 0 := by
  unfold rise
  split
  · next hs =>
    have hcounters : (i.step s).value.2.fanout.counters = i.fanout.counters := by
      rcases hs with hs | ⟨rfl, rfl⟩
      · rw [fanout_of_not_ended hs he]
      · have ht := i.takes_endStream
        generalize (i.step .endStream).value = r at *
        cases ht with
        | empty | start => rfl
        | void _ n hs hp => cases hs
    rw [hcounters, Int.sub_self]
  · rfl

theorem raised_eq_zero {steps : List Step} (he : ¬i.Ends n steps) :
    i.raised counter n steps = 0 := by
  induction steps generalizing i with
  | nil => rfl
  | cons s steps ih =>
    obtain ⟨hnow, hlater⟩ := not_or.mp (mt ends_cons_iff.mpr he)
    rw [raised, ih hlater, Int.add_zero]
    exact rise_eq_zero fun result hr => hnow (hr ▸ decide_eq_true rfl)

/-- A pass ends at once, or with a step about it while it is in flight. -/
theorem Takes.concerns_of_ended (ht : i.Takes s r) (he : r.1 = .ended n result) :
    i.Concerns n s ∧ (i.streamsEnded = n ∨ i.pass? n ≠ none) := by
  have flying {p : Pass} (hp : i.pass? n = some p) : i.pass? n ≠ none := by
    rw [hp]
    exact Option.some_ne_none p
  cases ht with
  | empty hg hl =>
    cases he
    exact ⟨.inr ⟨rfl, rfl⟩, .inl rfl⟩
  | finish m a p plan lanes hp hr =>
    cases he
    exact ⟨.inl rfl, .inr (flying hp)⟩
  | discard m a p gops hp hr =>
    cases he
    exact ⟨.inl rfl, .inr (flying hp)⟩
  | _ => cases he

theorem not_ends_before (h : i.Sound) {steps : List Step}
    (he : ((i.after steps).step s).value.1 = .ended n result) : ¬i.Ends n steps := by
  rintro ⟨result', hm⟩
  obtain ⟨xs, s', ys, rfl, hr⟩ := exists_of_mem_shown hm
  have ht := (i.after xs).takes_step s'
  have hlt : n < ((i.after xs).step s').value.2.streamsEnded :=
    ht.lt_of_pass? (h.after xs) (by rw [hr]; rfl)
  have hafter : i.after (xs ++ s' :: ys) = ((i.after xs).step s').value.2.after ys :=
    after_append i xs (s' :: ys)
  rw [hafter] at he
  rcases ((takes_step _ s).concerns_of_ended he).2 with hn | hp
  · exact absurd (streamsEnded_le_after _ ys) (Nat.not_le.mpr (hn ▸ hlt))
  · exact hp (unseen hlt (ht.pass?_of_ended hr) ys).2.2.2

/-- A pass raises the counters with its last step alone. -/
theorem raised_of_ended (h : i.Sound) (xs ys : List Step)
    (he : ((i.after xs).step s).value.1 = .ended n result) :
    i.raised counter n (xs ++ s :: ys) =
      (counter ((i.after xs).step s).value.2.fanout.counters : Int) -
        counter (i.after xs).fanout.counters := by
  have ht := (i.after xs).takes_step s
  have hlt : n < ((i.after xs).step s).value.2.streamsEnded :=
    ht.lt_of_pass? (h.after xs) (by rw [he]; rfl)
  have hys := (unseen hlt (ht.pass?_of_ended he) ys).2.2.1
  rw [raised_append, raised, raised_eq_zero (not_ends_before h he), raised_eq_zero hys,
    Int.zero_add, Int.add_zero, rise, if_pos (ht.concerns_of_ended he).1]

/-- A pass that ends without an error has handed all of its blocks to the sink. -/
theorem sentOn_of_ok (h : i.Sound) {during : List Step} {report : Report}
    (hm : .ended i.streamsEnded (.ok report) ∈ i.shown (.endStream :: during)) :
    ∀ b ∈ i.fanout.blocks, sentOn b.channel (i.calls i.streamsEnded (.endStream :: during)) =
      Gop.flatten (b.share i.fanout.grouping.groups) := by
  intro b hb
  refine (sentOn_prefix_share h during hb).eq_of_length_le ?_
  rw [← (deliveredOn_of_ok h hm).2 b hb]
  exact length_deliveredOn_le ..

/-- A pass that ends without an error reports all of its blocks. It has pushed every unit of them
and dropped none. -/
theorem full_of_ok (h : i.Sound) {during : List Step} {report : Report}
    (hm : .ended i.streamsEnded (.ok report) ∈ i.shown (.endStream :: during)) :
    report = fullReport i.fanout.grouping.groups i.fanout.plan ∧
      i.raised Counters.unitsPushed i.streamsEnded (.endStream :: during) =
        Gop.unitCount i.fanout.grouping.groups ∧
      i.raised Counters.unitsDropped i.streamsEnded (.endStream :: during) = 0 := by
  obtain ⟨hg, hl⟩ := starts_of_ok h hm
  have hdelivered := (deliveredOn_of_ok h hm).2
  obtain ⟨xs, s, ys, rfl, he, hcalls, hstops⟩ := exists_last_step (.inr hg) hm
  obtain ⟨lanes, hsettled, hresult, hfanout⟩ := settles_of_ended h hg hl xs he
  rw [hcalls, answers, hstops] at hdelivered
  obtain ⟨hfailed, hdropped, hreport⟩ := Lane.report_of_whole (hsettled.whole hdelivered)
  have hsum := hsettled.pushed_add_dropped (Fanout.contiguous_blocks hl)
  rw [← hsettled.pushed_eq, hdropped, Nat.add_zero] at hsum
  rw [Fanout.book_result, if_pos hfailed, hreport] at hresult
  have hraised (counter : Counters → Nat) :
      i.raised counter i.streamsEnded (.endStream :: (xs ++ s :: ys)) =
        (counter ((i.after (.endStream :: xs)).fanout.booked lanes).counters : Int) -
          counter (i.after (.endStream :: xs)).fanout.counters :=
    hfanout ▸ raised_of_ended h (.endStream :: xs) ys he
  refine ⟨Except.ok.inj hresult, ?_, ?_⟩
  · rw [hraised, ← hsum]
    show ((_ + _ : Nat) : Int) - _ = _
    omega
  · rw [hraised, Fanout.booked, hdropped]
    exact Int.sub_self _

/-- The report of a pass without losses names the live channels in the order of their registration,
each with a run of groups that starts where the one before it stops, the first with the first
group. A channel has as many units in it as the pass has pushed there, and those are the units of
its groups. All groups of the stream and all units accepted since the stream before it are in the
report; the pass raises the count of pushed units by as many, and that of dropped ones by none. -/
theorem report_contents (config : Config) (before during : List Step) (report : Report) :
    let i := (fresh config).after before
    let n := i.streamsEnded
    let run := .endStream :: during
    let gops := i.fanout.grouping.finalize.value
    .ended n (.ok report) ∈ i.shown run →
      report.assignments.map Assignment.channel = i.fanout.live ∧
      report.assignments.head?.map Assignment.firstGop = some 0 ∧
      (report.assignments.IsChain fun a a' => a'.firstGop = a.firstGop + a.gopCount) ∧
      (∀ a ∈ report.assignments,
        a.unitsPushed = (sentOn a.channel (i.calls n run)).length ∧
        a.unitsPushed = Gop.unitCount ((gops.drop a.firstGop).take a.gopCount)) ∧
      report.gopCount = gops.length ∧
      report.unitsPushed = (openStream before).length ∧
      i.raised Counters.unitsPushed n run = report.unitsPushed ∧
      i.raised Counters.unitsDropped n run = 0 ∧
      report.idle = report.assignments.countP (·.gopCount = 0) := by
  intro i n run gops hm
  have h : i.Sound := (sound_fresh config).after before
  have hgroups : i.fanout.grouping.groups = gops := (Grouping.finalize_value _).symm
  obtain ⟨hg, hl⟩ := starts_of_ok h hm
  obtain ⟨rfl, hpushed, hdropped⟩ := full_of_ok h hm
  have hsent := sentOn_of_ok h hm
  have hc : Contiguous 0 i.fanout.grouping.groups.length i.fanout.blocks :=
    Fanout.contiguous_blocks hl
  have hchannels : i.fanout.blocks.map Block.channel = i.fanout.live := i.fanout.channels_blocks
  have hne : i.fanout.blocks ≠ [] := fun hnil => hl (by rw [← hchannels, hnil]; rfl)
  have haccepted : Gop.unitCount i.fanout.grouping.groups = (openStream before).length := by
    have hunits := congrArg List.length (groups_after config before).units_eq
    rwa [Grouping.units, Gop.length_flatten, List.length_map] at hunits
  rw [← hgroups]
  refine ⟨?_, head?_firstGop_fullReport hc hne, isChain_fullReport hc, fun a ha => ?_,
    gopCount_fullReport hc, ?_, ?_, hdropped, idle_fullReport _ hl⟩
  · rw [fullReport, List.map_map]
    exact hchannels
  · obtain ⟨b, hb, rfl⟩ := List.mem_map.mp ha
    refine ⟨?_, rfl⟩
    show _ = (sentOn b.channel _).length
    rw [hsent b hb, Gop.length_flatten]
  · rw [unitsPushed_fullReport hc, haccepted]
  · rw [unitsPushed_fullReport hc]
    exact hpushed

/-- Three groups over two channels, of which one is released and another one comes while the pass
waits. -/
theorem report_contents_two_channels :
    let frame (pts : UInt64) (isKeyframe : Bool) : AccessUnit :=
      { pts, payload := ⟨#[1]⟩, isKeyframe }
    let before : List Step := [.call (.request (some ⟨0⟩)), .call (.request (some ⟨7⟩)),
      .call (.arriveAll [frame 0 true, frame 1 false, frame 2 true, frame 3 true])]
    let during : List Step := [.resume 0, .resume 0, .resume 0, .resume 0, .resume 0,
      .call (.arrive (frame 4 true)), .resume 0, .call (.request (some ⟨3⟩)),
      .call (.release ⟨7⟩), .resume 0, .resume 0, .resume 0, .resume 0]
    let i := (fresh {}).after before
    i.raised Counters.unitsPushed 0 (.endStream :: during) = 4 := by
  intro frame before during i
  let report : Report := { assignments := [⟨⟨0⟩, 0, 1, 2⟩, ⟨⟨7⟩, 1, 2, 2⟩], idle := 0 }
  have hlast : (i.shown (.endStream :: during))[13]? = some (.ended 0 (.ok report)) := by
    decide +kernel
  have hm : .ended 0 (.ok report) ∈ i.shown (.endStream :: during) := List.mem_of_getElem? hlast
  obtain ⟨-, -, -, -, -, -, hraised, -⟩ := report_contents {} before during report hm
  exact hraised

end Interleaving

end StreamFanout
