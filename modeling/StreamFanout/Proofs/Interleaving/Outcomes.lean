import StreamFanout.Proofs.Distribution.Tallies
import StreamFanout.Proofs.Interleaving.Streams

/-!
What a pass of a run has come to: the units that the sink has accepted from it so far, and, when
it ends, its result and what it adds to the counters.
-/
namespace StreamFanout

/-- The units that the sink accepted on `c`. The `k`-th answer is that to the `k`-th call. -/
def deliveredOn (c : Channel) (calls : List SinkCall) (answers : List Answer) : List AccessUnit :=
  (calls.zip answers).filterMap fun e => e.1.deliveredOn? c e.2

def delivered (calls : List SinkCall) (answers : List Answer) : List AccessUnit :=
  (calls.zip answers).filterMap fun e => e.1.delivered? e.2

def Stop.deliveredOn (c : Channel) (stops : List Stop) : List AccessUnit :=
  stops.filterMap fun s => s.call?.bind fun call => call.deliveredOn? c s.reply.answer

def Stop.delivered (stops : List Stop) : List AccessUnit :=
  stops.filterMap fun s => s.call?.bind fun call => call.delivered? s.reply.answer

/-- What was accepted can be told from the calls and the answers alone. -/
theorem Stop.filterMap_zip {f : SinkCall → Answer → Option AccessUnit} (stops : List Stop)
    (more : List SinkCall) :
    ((stops.filterMap call? ++ more).zip (stops.filterMap answer?)).filterMap
        (fun e => f e.1 e.2) =
      stops.filterMap fun s => s.call?.bind fun call => f call s.reply.answer := by
  induction stops with
  | nil =>
    rw [List.filterMap_nil, List.filterMap_nil, List.zip_nil_right]
    rfl
  | cons s stops ih =>
    rw [filterMap_cons_eq, filterMap_cons_eq answer?, filterMap_cons_eq (fun s : Stop => _), ← ih,
      answer?]
    cases s.call? with
    | none => rfl
    | some call => exact filterMap_cons_eq (fun e : SinkCall × Answer => f e.1 e.2) _ _

/-- `stops` are those that a pass has left, and `r` is what it has come to with them. -/
structure Progress.Follows (gops : List Gop) (plan : Partition) (stops : List Stop)
    (r : Progress) : Prop where
  plan?_eq : r.plan? = some plan
  inStep : r.InStep
  tallied : r.Tallied gops fun c => Stop.deliveredOn c stops
  pushed_eq : r.pushed = (Stop.delivered stops).length

theorem Progress.Follows.blocks_eq {gops : List Gop} {plan : Partition} {stops : List Stop}
    {r : Progress} (h : r.Follows gops plan stops) : r.blocks = plan.blocks :=
  h.inStep.blocks_eq h.plan?_eq

namespace Goes

variable {silent : Bool} {r r' : Progress} {stops : List Stop}

theorem plan?_eq (h : Goes silent r stops r') : r'.plan? = r.plan? := by
  induction h with
  | here => rfl
  | leave _ ih => exact ih.trans (Pass.plan?_resume _ _ _ _)

theorem tallied (h : Goes silent r stops r') {gops : List Gop} {got : Channel → List AccessUnit}
    (hd : (r.blocks.map Block.channel).Nodup) (hr : r.Tallied gops got) :
    r'.Tallied gops fun c => got c ++ Stop.deliveredOn c stops := by
  induction h generalizing got with
  | here =>
    have hnil : (fun c => got c ++ Stop.deliveredOn c []) = got := funext fun c =>
      List.append_nil _
    rwa [hnil]
  | @leave s stops r' h ih =>
    have hblocks : (s.next silent).blocks = (Progress.waiting s.pass).blocks :=
      Pass.blocks_resume _ _ _ _
    have hlanes : (s.pass.lanes.map Lane.channel).Nodup := by rwa [Pass.channels_eq_blocks]
    have hnext := ih (hblocks ▸ hd)
      (Pass.tallied_resume s.reply.roster.contains silent hlanes hr s.reply.answer)
    have hcredit : (fun c => got c ++ Stop.deliveredOn c (s :: stops)) = fun c =>
        s.pass.credit got s.reply.answer c ++ Stop.deliveredOn c stops := by
      funext c
      rw [Pass.credit, List.append_assoc, Stop.deliveredOn, filterMap_cons_eq]
      rfl
    rwa [hcredit]

theorem pushed_eq (h : Goes silent r stops r') :
    r'.pushed = r.pushed + (Stop.delivered stops).length := by
  induction h with
  | here => rfl
  | @leave s stops r' h ih =>
    have hone : (s.next silent).pushed = (Progress.waiting s.pass).pushed +
        (s.call?.bind fun call => call.delivered? s.reply.answer).toList.length :=
      Pass.pushed_resume _ _ _ _
    rw [ih, hone, Nat.add_assoc, Stop.delivered, Stop.delivered, filterMap_cons_eq,
      List.length_append]

end Goes

/-- All calls of a pass were answered, and `lanes` is what is left of it. -/
structure Pass.Settles (gops : List Gop) (blocks : List Block) (calls : List SinkCall)
    (answers : List Answer) (lanes : List Lane) : Prop where
  length_eq : calls.length = answers.length
  blocks_eq : lanes.map Lane.block = blocks
  tallied : ∀ l ∈ lanes, l.Tally gops (deliveredOn l.channel calls answers) []
  pushed_eq : Lane.totalPushed lanes = (delivered calls answers).length
  drained : Lane.Drained lanes

namespace Pass

variable {gops : List Gop} {blocks : List Block}

namespace Settles

variable {calls : List SinkCall} {answers : List Answer} {lanes : List Lane}

/-- The lanes that failed are those of the blocks that were not accepted as a whole. -/
theorem failedChannels_eq (h : Settles gops blocks calls answers lanes) :
    Lane.failedChannels lanes =
      (blocks.filter fun b => deliveredOn b.channel calls answers ≠
        Gop.flatten (b.share gops)).map Block.channel := by
  rw [← h.blocks_eq, List.filter_map, List.map_map, Lane.failedChannels]
  have hfilter : lanes.filter Lane.failed =
      lanes.filter ((fun b : Block => decide (deliveredOn b.channel calls answers ≠
        Gop.flatten (b.share gops))) ∘ Lane.block) := by
    apply List.filter_congr
    intro l hl
    have hf := (h.tallied l hl).failed_iff (h.drained l hl)
    exact Bool.eq_iff_iff.mpr (hf.trans decide_eq_true_iff.symm)
  rw [hfilter]
  rfl

theorem prefix_share (h : Settles gops blocks calls answers lanes) :
    ∀ b ∈ blocks, deliveredOn b.channel calls answers <+: Gop.flatten (b.share gops) := by
  rw [← h.blocks_eq]
  intro b hb
  obtain ⟨l, hl, rfl⟩ := List.mem_map.mp hb
  exact (h.tallied l hl).prefix_share

/-- Every unit was pushed or dropped. -/
theorem pushed_add_dropped (h : Settles gops blocks calls answers lanes)
    (hc : Contiguous 0 gops.length blocks) :
    (delivered calls answers).length + Lane.totalDropped lanes = Gop.unitCount gops := by
  have hsum (ls : List Lane) (hls : ∀ l ∈ ls, l ∈ lanes) :
      Lane.totalPushed ls + Lane.totalDropped ls =
        Gop.unitCount ((ls.map Lane.block).flatMap (Block.share gops)) := by
    induction ls with
    | nil => rfl
    | cons l ls ih =>
      have hm := hls l List.mem_cons_self
      have ht := h.tallied l hm
      have hl := ht.pushed_add_dropped (h.drained l hm)
      have hp := ht.pushed_eq
      have ih := ih fun m hm => hls m (List.mem_cons_of_mem _ hm)
      rw [List.map_cons, List.flatMap_cons, Gop.unitCount_append]
      simp only [Lane.totalPushed, Lane.totalDropped, sumOf_cons] at ih ⊢
      omega
  rw [← h.pushed_eq, hsum lanes fun _ hl => hl, h.blocks_eq, hc.flatMap_share, List.drop_zero]

/-- A channel that was short of some units failed, and they were dropped. -/
theorem shortfall (h : Settles gops blocks calls answers lanes) {b : Block} (hb : b ∈ blocks)
    {m : Nat} (hm : 0 < m) (hle : (deliveredOn b.channel calls answers).length + m ≤
      Gop.unitCount (b.share gops)) :
    b.channel ∈ Lane.failedChannels lanes ∧ m ≤ Lane.totalDropped lanes := by
  rw [← h.blocks_eq] at hb
  obtain ⟨l, hl, rfl⟩ := List.mem_map.mp hb
  have hle : (deliveredOn l.channel calls answers).length + m ≤
    Gop.unitCount (l.block.share gops) := hle
  have ht := h.tallied l hl
  have hq := h.drained l hl
  have hsum := ht.pushed_add_dropped hq
  constructor
  · have hfailed : l.failed = true := by
      refine (ht.failed_iff hq).mpr fun he => ?_
      rw [he, Gop.length_flatten] at hle
      omega
    exact List.mem_map_of_mem (List.mem_filter.mpr ⟨hl, hfailed⟩)
  · obtain ⟨xs, ys, rfl⟩ := List.append_of_mem hl
    simp only [Lane.totalDropped, sumOf_append, sumOf_cons]
    omega

end Settles

end Pass

theorem Fanout.blocks_opening {f : Fanout} (hl : f.live ≠ []) : f.opening.blocks = f.blocks := by
  rw [opening_of_live hl]
  exact Pass.blocks_start _ _ _

namespace Interleaving

variable {i : Interleaving} {n : Nat} {p : Pass}

/-- A pass leaves no stop before its stream has ended. -/
theorem stops_before (h : i.Sound) (steps : List Step) :
    i.stops (i.after steps).streamsEnded steps = [] := by
  have run (n : Nat) (hn : (i.after steps).streamsEnded ≤ n) : i.stops n steps = [] := by
    induction steps generalizing i with
    | nil => rfl
    | cons s steps ih =>
      have hle := Nat.le_trans (streamsEnded_le_after i (s :: steps)) hn
      have hnone : i.pass? n = none := by
        cases hp : i.pass? n with
        | none => rfl
        | some p => exact absurd (h.number_lt n p hp) (Nat.not_lt.mpr hle)
      rw [stops_cons, stop?_eq_none (.inr hnone), ih (h.step s) hn]
      rfl
  exact run _ (Nat.le_refl _)

theorem lt_streamsEnded (i : Interleaving) (during : List Step) :
    i.streamsEnded < (i.after (.endStream :: during)).streamsEnded :=
  Nat.lt_of_lt_of_le (by rw [i.takes_endStream.streamsEnded_eq]; simp)
    (streamsEnded_le_after _ during)

/-- The pass of a stream follows the stops that it leaves. -/
theorem follows_of_goes (h : i.Sound) (hl : i.fanout.live ≠ []) {stops : List Stop} {r : Progress}
    (hgoes : Goes i.fanout.config.silent (.waiting i.fanout.opening) stops r) :
    r.Follows i.fanout.grouping.groups i.fanout.plan stops := by
  have hopening := Fanout.opening_of_live hl
  have hblocks : (Progress.waiting i.fanout.opening).blocks = i.fanout.plan.blocks :=
    Fanout.blocks_opening hl
  have htallied : (Progress.waiting i.fanout.opening).Tallied i.fanout.grouping.groups
      fun _ => [] := by
    rw [hopening]
    exact Pass.tallied_start _ _
  have hplan : (Progress.waiting i.fanout.opening).plan? = some i.fanout.plan := by
    rw [hopening]
    exact Pass.plan?_start _ _
  have hpushed : (Progress.waiting i.fanout.opening).pushed = 0 := by
    rw [hopening]
    exact Pass.pushed_start _ _ _
  constructor
  · exact hgoes.plan?_eq.trans hplan
  · exact hgoes.inStep i.fanout.inStep_opening
  · exact hgoes.tallied (hblocks ▸ Fanout.nodup_blocks h.live_nodup) htallied
  · rw [hgoes.pushed_eq, hpushed, Nat.zero_add]

/-- As long as it is in flight a pass follows the stops that it has left. -/
theorem follows_endStream (h : i.Sound) (hg : i.fanout.grouping.groups ≠ [])
    (hl : i.fanout.live ≠ []) (during : List Step) {q : Pass}
    (hq : (i.after (.endStream :: during)).pass? i.streamsEnded = some q) :
    (Progress.waiting q).Follows i.fanout.grouping.groups i.fanout.plan
      (i.stops i.streamsEnded (.endStream :: during)) := by
  obtain ⟨r, hgoes, -, -, hafter⟩ := goes_endStream h (.inr hg) during
  rw [hafter q hq] at hgoes
  exact follows_of_goes h hl hgoes

/-- A pass in flight ends when it leaves its last stop, and with that step its units are counted. -/
theorem step_ended (hn : n < i.streamsEnded) {s : Step} {result : Except FanoutError Report}
    (he : (i.step s).value.1 = .ended n result) :
    ∃ p a, i.pass? n = some p ∧ s = .resume n a ∧
      ((∃ plan lanes, (p.resume i.fanout.roster.contains i.fanout.config.silent a).value =
          .finished plan lanes ∧ result = (i.fanout.book plan lanes).value.1 ∧
          (i.step s).value.2.fanout = i.fanout.booked lanes) ∨
        ∃ gops, (p.resume i.fanout.roster.contains i.fanout.config.silent a).value =
          .discarded gops ∧ result = .error (.noChannels gops.length) ∧
          (i.step s).value.2.fanout = i.fanout.discard gops) := by
  have hs : s.pass? = some n := Classical.byContradiction fun hs =>
    ((i.takes_step s).other hn hs).1 (by rw [he]; rfl)
  cases hp : i.pass? n with
  | none =>
    rw [(i.takes_step s).eq_void hs hp] at he
    cases he
  | some p =>
    rcases step_of_pass hp hs with ⟨a, p', rfl, -, hstep⟩ | ⟨-, ⟨a, res, rfl, hres, hend⟩ | ⟨-, hd⟩⟩
    · rw [hstep] at he
      cases he
    · cases hres.symm.trans he
      exact ⟨p, a, rfl, rfl, hend⟩
    · rw [hd] at he
      cases he

/-- Until a pass ends, what is done to it leaves the fanout alone. -/
theorem fanout_of_not_ended {s : Step} (hs : s.pass? = some n)
    (he : ∀ result, (i.step s).value.1 ≠ .ended n result) :
    (i.step s).value.2.fanout = i.fanout := by
  have ht := i.takes_step s
  generalize (i.step s).value = r at *
  cases ht with
  | finish m a p plan lanes hp hr =>
    cases hs
    exact absurd rfl (he _)
  | discard m a p gops hp hr =>
    cases hs
    exact absurd rfl (he _)
  | proceed | drop | void => rfl
  | _ => cases hs

/-- At its end a pass has gone from its opening through all of its stops. -/
theorem goes_of_ended (h : i.Sound) (ho : i.fanout.live = [] ∨ i.fanout.grouping.groups ≠ [])
    (during : List Step) {s : Step} {result : Except FanoutError Report}
    (he : ((i.after (.endStream :: during)).step s).value.1 = .ended i.streamsEnded result) :
    ∃ r, Goes i.fanout.config.silent (.waiting i.fanout.opening)
        (i.stops i.streamsEnded (.endStream :: during ++ [s])) r ∧
      ((∃ plan lanes, r = .finished plan lanes ∧
          result = ((i.after (.endStream :: during)).fanout.book plan lanes).value.1 ∧
          ((i.after (.endStream :: during)).step s).value.2.fanout =
            (i.after (.endStream :: during)).fanout.booked lanes) ∨
        ∃ gops, r = .discarded gops ∧ result = .error (.noChannels gops.length) ∧
          ((i.after (.endStream :: during)).step s).value.2.fanout =
            (i.after (.endStream :: during)).fanout.discard gops) := by
  obtain ⟨p, a, hp, rfl, hend⟩ := step_ended (i.lt_streamsEnded during) he
  obtain ⟨r, hgoes, -, -, hafter⟩ := goes_endStream h ho during
  rw [hafter p hp] at hgoes
  have hstops : i.stops i.streamsEnded (.endStream :: during ++ [.resume i.streamsEnded a]) =
      i.stops i.streamsEnded (.endStream :: during) ++
        [⟨p, (i.after (.endStream :: during)).fanout.roster, a⟩] := by
    have hone := stops_cons (i.after (.endStream :: during)) i.streamsEnded
      (.resume i.streamsEnded a) []
    rw [stops_append, hone, stop?_resume hp]
    rfl
  have hlast {r : Progress} (hr : (p.resume (i.after (.endStream :: during)).fanout.roster.contains
      (i.after (.endStream :: during)).fanout.config.silent a).value = r) :
      Goes i.fanout.config.silent (.waiting i.fanout.opening)
        (i.stops i.streamsEnded (.endStream :: during ++ [.resume i.streamsEnded a])) r := by
    rw [hstops]
    rw [config_after] at hr
    exact hgoes.trans (Goes.of_resume hr (.here r))
  rcases hend with ⟨plan, lanes, hr, hresult, hfanout⟩ | ⟨gops, hr, hresult, hfanout⟩
  · exact ⟨_, hlast hr, .inl ⟨plan, lanes, rfl, hresult, hfanout⟩⟩
  · exact ⟨_, hlast hr, .inr ⟨gops, rfl, hresult, hfanout⟩⟩

/-- What the end of a pass says and counts is settled by its calls and their answers. -/
theorem settles_of_ended (h : i.Sound) (hg : i.fanout.grouping.groups ≠ [])
    (hl : i.fanout.live ≠ []) (during : List Step) {s : Step} {result : Except FanoutError Report}
    (he : ((i.after (.endStream :: during)).step s).value.1 = .ended i.streamsEnded result) :
    ∃ lanes, Pass.Settles i.fanout.grouping.groups i.fanout.blocks
        (i.calls i.streamsEnded (.endStream :: during ++ [s]))
        (i.answers i.streamsEnded (.endStream :: during ++ [s])) lanes ∧
      result = ((i.after (.endStream :: during)).fanout.book i.fanout.plan lanes).value.1 ∧
      ((i.after (.endStream :: during)).step s).value.2.fanout =
        (i.after (.endStream :: during)).fanout.booked lanes := by
  obtain ⟨r, hgoes, hend⟩ := goes_of_ended h (.inr hg) during he
  have hf := follows_of_goes h hl hgoes
  have hlast : (i.after (.endStream :: during)).Ends i.streamsEnded [s] :=
    ⟨result, List.mem_singleton.mpr he.symm⟩
  have hends : i.Ends i.streamsEnded (.endStream :: (during ++ [s])) := hlast.of_after
  obtain ⟨r', hgoes', hcalls, hends', -⟩ := goes_endStream h (.inr hg) (during ++ [s])
  rw [← List.cons_append] at hcalls
  have hnone : r'.next? = none := by
    rw [Progress.next?, hends'.mp hends]
    rfl
  rw [hnone] at hcalls
  have hlength := (length_calls h (.inr hg) (during ++ [s])).2.2.1 hends
  rcases hend with ⟨plan, lanes, rfl, hresult, hfanout⟩ | ⟨gops, rfl, -⟩
  · cases hf.plan?_eq
    refine ⟨lanes, ⟨hlength, hf.blocks_eq, fun l hm => ?_, ?_, hf.inStep.2⟩, hresult, hfanout⟩
    · have ht : l.Tally _ (Stop.deliveredOn l.channel _) [] := hf.tallied l hm
      rw [deliveredOn, hcalls, answers, Stop.filterMap_zip]
      exact ht
    · rw [delivered, hcalls, answers, Stop.filterMap_zip]
      exact hf.pushed_eq
  · cases hf.plan?_eq

theorem exists_of_mem_shown {steps : List Step} {r : StepResult} (h : r ∈ i.shown steps) :
    ∃ xs s ys, steps = xs ++ s :: ys ∧ ((i.after xs).step s).value.1 = r := by
  induction steps generalizing i with
  | nil => cases h
  | cons s steps ih =>
    rw [shown_cons] at h
    rcases List.mem_cons.mp h with h | h
    · exact ⟨[], s, steps, rfl, h.symm⟩
    · obtain ⟨xs, s', ys, rfl, hr⟩ := ih h
      exact ⟨s :: xs, s', ys, rfl, hr⟩

/-- A pass that ends in a run ends with one of its steps. Nothing is seen of the pass after it, so
all calls and answers are those up to it. -/
theorem exists_last_step (ho : i.fanout.live = [] ∨ i.fanout.grouping.groups ≠ [])
    {during : List Step} {result : Except FanoutError Report}
    (hm : .ended i.streamsEnded result ∈ i.shown (.endStream :: during)) :
    ∃ xs s ys, during = xs ++ s :: ys ∧
      ((i.after (.endStream :: xs)).step s).value.1 = .ended i.streamsEnded result ∧
      i.calls i.streamsEnded (.endStream :: during) =
        i.calls i.streamsEnded (.endStream :: xs ++ [s]) ∧
      i.stops i.streamsEnded (.endStream :: during) =
        i.stops i.streamsEnded (.endStream :: xs ++ [s]) := by
  have hm : .ended i.streamsEnded result ∈ (i.step .endStream).value.2.shown during := by
    rcases List.mem_cons.mp hm with he | hm
    · rw [step_endStream ho] at he
      cases he
    · exact hm
  obtain ⟨xs, s, ys, rfl, he⟩ := exists_of_mem_shown hm
  have he : ((i.after (.endStream :: xs)).step s).value.1 = .ended i.streamsEnded result := he
  have hrun : .endStream :: (xs ++ s :: ys) = (.endStream :: xs ++ [s]) ++ ys := by simp
  have hafter : i.after (.endStream :: xs ++ [s]) =
      ((i.after (.endStream :: xs)).step s).value.2 := by
    rw [after_append]
    rfl
  have hn := i.lt_streamsEnded (xs ++ [s])
  rw [← List.cons_append, hafter] at hn
  obtain ⟨hcalls, hstops, -⟩ := unseen hn
    (((i.after (.endStream :: xs)).takes_step s).pass?_of_ended he) ys
  refine ⟨xs, s, ys, rfl, he, ?_, ?_⟩
  · rw [hrun, calls_append, hafter, hcalls, List.append_nil]
  · rw [hrun, stops_append, hafter, hstops, List.append_nil]

/-- Without groups or without channels an end of stream gives an error. -/
theorem starts_of_ok (h : i.Sound) {during : List Step} {report : Report}
    (hm : .ended i.streamsEnded (.ok report) ∈ i.shown (.endStream :: during)) :
    i.fanout.grouping.groups ≠ [] ∧ i.fanout.live ≠ [] := by
  by_cases hl : i.fanout.live = []
  · obtain ⟨xs, s, ys, rfl, he, -⟩ := exists_last_step (.inl hl) hm
    obtain ⟨r, hgoes, ⟨plan, lanes, rfl, -⟩ | ⟨gops, -, hresult, -⟩⟩ :=
      goes_of_ended h (.inl hl) xs he
    · have hplan := hgoes.plan?_eq
      rw [Fanout.opening, if_pos hl] at hplan
      cases hplan
    · cases hresult
  · refine ⟨fun hg => ?_, hl⟩
    rcases List.mem_cons.mp hm with he | hm
    · rw [step_endStream_empty hg hl] at he
      cases he
    · refine absurd ⟨_, hm⟩ (unseen ?_ ?_ during).2.2.1
      · exact i.lt_streamsEnded []
      · rw [step_endStream_empty hg hl, pass?_land_self]

/-- The calls and answers of a run settle what a pass has given back in it. -/
theorem settles_of_shown (h : i.Sound) (hg : i.fanout.grouping.groups ≠ [])
    (hl : i.fanout.live ≠ []) {during : List Step} {result : Except FanoutError Report}
    (hm : .ended i.streamsEnded result ∈ i.shown (.endStream :: during)) :
    ∃ lanes fanout, Pass.Settles i.fanout.grouping.groups i.fanout.blocks
        (i.calls i.streamsEnded (.endStream :: during))
        (i.answers i.streamsEnded (.endStream :: during)) lanes ∧
      result = (Fanout.book fanout i.fanout.plan lanes).value.1 := by
  obtain ⟨xs, s, ys, -, he, hcalls, hstops⟩ := exists_last_step (.inr hg) hm
  obtain ⟨lanes, hsettled, hresult, -⟩ := settles_of_ended h hg hl xs he
  rw [← hcalls, answers, ← hstops] at hsettled
  exact ⟨lanes, _, hsettled, hresult⟩

/-- A pass that ends without an error has delivered each of its blocks. -/
theorem deliveredOn_of_ok (h : i.Sound) {during : List Step} {report : Report}
    (hm : .ended i.streamsEnded (.ok report) ∈ i.shown (.endStream :: during)) :
    i.fanout.live ≠ [] ∧ ∀ b ∈ i.fanout.blocks,
      deliveredOn b.channel (i.calls i.streamsEnded (.endStream :: during))
          (i.answers i.streamsEnded (.endStream :: during)) =
        Gop.flatten (b.share i.fanout.grouping.groups) := by
  obtain ⟨hg, hl⟩ := starts_of_ok h hm
  obtain ⟨lanes, fanout, hsettled, hresult⟩ := settles_of_shown h hg hl hm
  have hnone : Lane.failedChannels lanes = [] := by
    refine Classical.byContradiction fun hf => ?_
    rw [Fanout.book_result, if_neg hf] at hresult
    cases hresult
  rw [hsettled.failedChannels_eq, List.map_eq_nil_iff, List.filter_eq_nil_iff] at hnone
  exact ⟨hl, fun b hb => Decidable.not_not.mp fun hne => hnone b hb (decide_eq_true hne)⟩

end Interleaving

end StreamFanout
