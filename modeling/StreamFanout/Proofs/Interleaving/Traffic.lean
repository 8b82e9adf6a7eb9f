import StreamFanout.Proofs.Distribution.Channels
import StreamFanout.Proofs.Interleaving.Streams

/-!
The calls on one channel, of all passes together. Passes that share a channel are not kept apart:
their calls stay in the order of the streams exactly as long as no stream ends while an earlier
pass has still to call on one of the live channels.
-/
namespace StreamFanout

/-- The call that a step shows on `c`, with the number of its stream. -/
def StepResult.callOn? (c : Channel) : StepResult → Option (Nat × SinkCall)
  | .waiting n (some call) => if call.channel = c then some (n, call) else none
  | _ => none

namespace Interleaving

def traffic (i : Interleaving) (c : Channel) (steps : List Step) : List (Nat × SinkCall) :=
  (i.shown steps).filterMap (StepResult.callOn? c)

/-- The calls of each stream come before those of the later ones. -/
def InOrder (calls : List (Nat × SinkCall)) : Prop :=
  calls.Pairwise fun a b => a.1 ≤ b.1

instance (calls : List (Nat × SinkCall)) : Decidable (InOrder calls) :=
  inferInstanceAs (Decidable (List.Pairwise _ calls))

/-- No pass in flight has still to call on a live channel. -/
def Clear (i : Interleaving) : Prop :=
  ∀ n p, i.pass? n = some p → ∀ c ∈ p.toCome, c ∉ i.fanout.live

/-- Streams that have any unit end in clear states only. -/
def Serial (i : Interleaving) : List Step → Prop
  | [] => True
  | s :: steps => (s = .endStream → i.fanout.grouping.groups ≠ [] → i.Clear) ∧
      Serial (i.step s).value.2 steps

variable {i : Interleaving} {c : Channel} {n : Nat} {s : Step} {r : StepResult × Interleaving}
  {past : List (Nat × SinkCall)}

theorem traffic_cons (i : Interleaving) (c : Channel) (s : Step) (steps : List Step) :
    i.traffic c (s :: steps) =
      ((i.step s).value.1.callOn? c).toList ++ (i.step s).value.2.traffic c steps := by
  rw [traffic, shown_cons, filterMap_cons_eq]
  rfl

theorem traffic_append (i : Interleaving) (c : Channel) (xs ys : List Step) :
    i.traffic c (xs ++ ys) = i.traffic c xs ++ (i.after xs).traffic c ys := by
  unfold traffic shown
  rw [trace_append, List.map_append, List.filterMap_append]

theorem lt_of_mem_traffic (h : i.Sound) {steps : List Step} :
    ∀ e ∈ i.traffic c steps, e.1 < (i.after steps).streamsEnded := by
  intro e he
  obtain ⟨result, hm, hr⟩ := List.mem_filterMap.mp he
  unfold StepResult.callOn? at hr
  split at hr
  · split at hr
    · rw [← Option.some.inj hr]
      exact lt_of_mem_shown h hm rfl
    · cases hr
  · cases hr

/-- One pass's part of the traffic on a channel is that channel's part of its calls. -/
theorem filter_traffic (i : Interleaving) (c : Channel) (n : Nat) (steps : List Step) :
    ((i.traffic c steps).filter (·.1 = n)).map Prod.snd =
      (i.calls n steps).filter (·.channel = c) := by
  unfold traffic calls
  rw [List.filter_filterMap, List.map_filterMap, List.filter_filterMap]
  congr 1
  funext result
  cases result with
  | waiting m call =>
    cases call with
    | none => simp [StepResult.callOn?, StepResult.call?]
    | some call =>
      by_cases hc : call.channel = c
      · by_cases hm : m = n <;> simp [StepResult.callOn?, StepResult.call?, hc, hm, Option.filter]
      · by_cases hm : m = n <;> simp [StepResult.callOn?, StepResult.call?, hc, hm, Option.filter]
  | _ => rfl

theorem InOrder.split {calls : List (Nat × SinkCall)} (h : InOrder calls) (n : Nat) :
    calls = calls.filter (·.1 < n) ++ calls.filter (n ≤ ·.1) := by
  induction calls with
  | nil => rfl
  | cons e calls ih =>
    obtain ⟨hle, h⟩ := List.pairwise_cons.mp h
    by_cases he : e.1 < n
    · rw [List.filter_cons_of_pos (by simpa using he),
        List.filter_cons_of_neg (by simpa using he), List.cons_append, ← ih h]
    · have hall : ∀ e' ∈ calls, n ≤ e'.1 := fun e' hm =>
        Nat.le_trans (Nat.le_of_not_lt he) (hle e' hm)
      have hnone : calls.filter (·.1 < n) = [] := by
        apply List.filter_eq_nil_iff.mpr
        intro e' hm
        simpa using hall e' hm
      have hself : calls.filter (n ≤ ·.1) = calls := by
        apply List.filter_eq_self.mpr
        intro e' hm
        simpa using hall e' hm
      rw [List.filter_cons_of_neg (by simpa using he),
        List.filter_cons_of_pos (by simpa using he), hnone, hself, List.nil_append]

/-- Calls in order are the calls of the first stream, then those of the second, and so on. -/
theorem InOrder.eq_flatMap {calls : List (Nat × SinkCall)} (h : InOrder calls) {n : Nat}
    (hn : ∀ e ∈ calls, e.1 < n) :
    calls = (List.range n).flatMap fun k => calls.filter (·.1 = k) := by
  induction n generalizing calls with
  | zero =>
    rw [List.eq_nil_iff_forall_not_mem.mpr fun e he => Nat.not_lt_zero _ (hn e he)]
    rfl
  | succ n ih =>
    have hlt : calls.filter (·.1 < n) =
        (List.range n).flatMap fun k => calls.filter (·.1 = k) := by
      rw [ih (List.Pairwise.filter _ h) fun e he => of_decide_eq_true (List.mem_filter.mp he).2]
      rw [List.flatMap_def, List.flatMap_def]
      refine congrArg _ (List.map_congr_left fun k hk => ?_)
      rw [List.filter_filter]
      apply List.filter_congr
      intro e _
      have hkn := List.mem_range.mp hk
      by_cases he : e.1 = k
      · simp [he, hkn]
      · simp [he]
    have hge : calls.filter (n ≤ ·.1) = calls.filter (·.1 = n) := by
      apply List.filter_congr
      intro e he
      have hlt := hn e he
      exact decide_eq_decide.mpr (by omega)
    rw [List.range_succ, List.flatMap_append, List.flatMap_singleton, ← hlt, ← hge]
    exact h.split n

/-- The calls on a channel so far are in order, and one pass at most may add to them: the latest
that has called, or a later one. -/
structure Queued (i : Interleaving) (c : Channel) (past : List (Nat × SinkCall)) : Prop where
  inOrder : InOrder past
  number_lt : ∀ e ∈ past, e.1 < i.streamsEnded
  latest : ∀ n p, i.pass? n = some p → c ∈ p.toCome → ∀ e ∈ past, e.1 ≤ n
  alone : ∀ m n p q, i.pass? m = some p → i.pass? n = some q → c ∈ p.toCome → c ∈ q.toCome → m = n

theorem Queued.land {m : Nat} (h : i.Queued c past) : (i.land m).Queued c past := by
  have hpass (n : Nat) (p : Pass) (hp : (i.land m).pass? n = some p) : i.pass? n = some p := by
    rw [pass?_land] at hp
    split at hp
    · cases hp
    · exact hp
  refine ⟨h.inOrder, h.number_lt, fun n p hp => h.latest n p (hpass n p hp), ?_⟩
  exact fun k n p q hp hq => h.alone k n p q (hpass k p hp) (hpass n q hq)

theorem mem_callOn?_waiting {p : Pass} {e : Nat × SinkCall}
    (he : e ∈ ((StepResult.waiting n p.call?).callOn? c).toList) : e.1 = n ∧ c ∈ p.scope := by
  rw [Option.mem_toList] at he
  cases hcall : p.call? with
  | none =>
    rw [hcall] at he
    cases he
  | some call =>
    rw [hcall, StepResult.callOn?] at he
    split at he
    · next hc =>
      rw [← Option.some.inj he]
      exact ⟨rfl, hc ▸ Pass.channel_call_mem_scope hcall⟩
    · cases he

/-- A pass may call on a channel that no other pass has to come, if it is the latest. -/
theorem Queued.hold (h : i.Queued c past) (hn : n < i.streamsEnded) {p : Pass}
    (hlatest : c ∈ p.scope → ∀ e ∈ past, e.1 ≤ n)
    (halone : c ∈ p.scope → ∀ m q, m ≠ n → i.pass? m = some q → c ∉ q.toCome) :
    (i.hold n p).Queued c
      (past ++ ((StepResult.waiting n p.call?).callOn? c).toList) := by
  have hnew := fun e => mem_callOn?_waiting (n := n) (p := p) (c := c) (e := e)
  have hother (m : Nat) (q : Pass) (hm : m ≠ n) (hq : (i.hold n p).pass? m = some q) :
      i.pass? m = some q := by
    rwa [pass?_hold_of_ne hm] at hq
  have hself (q : Pass) (hq : (i.hold n p).pass? n = some q) : q = p := by
    rw [pass?_hold_self] at hq
    exact (Option.some.inj hq).symm
  constructor
  · refine List.pairwise_append.mpr ⟨h.inOrder, ?_, fun a ha b hb => ?_⟩
    · cases (StepResult.waiting n p.call?).callOn? c with
      | none => exact List.Pairwise.nil
      | some e => exact List.pairwise_singleton _ e
    · rw [(hnew b hb).1]
      exact hlatest (hnew b hb).2 a ha
  · intro e he
    rcases List.mem_append.mp he with he | he
    · exact h.number_lt e he
    · rw [(hnew e he).1]
      exact hn
  · intro m q hq hc e he
    by_cases hm : m = n
    · subst hm
      rw [hself q hq] at hc
      rcases List.mem_append.mp he with he | he
      · exact hlatest (Pass.mem_scope_of_toCome hc) e he
      · exact Nat.le_of_eq (hnew e he).1
    · rcases List.mem_append.mp he with he | he
      · exact h.latest m q (hother m q hm hq) hc e he
      · exact absurd hc (halone (hnew e he).2 m q hm (hother m q hm hq))
  · intro k m q q' hq hq' hc hc'
    by_cases hk : k = n
    · by_cases hm : m = n
      · rw [hk, hm]
      · subst hk
        rw [hself q hq] at hc
        exact absurd hc' (halone (Pass.mem_scope_of_toCome hc) m q' hm (hother m q' hm hq'))
    · by_cases hm : m = n
      · subst hm
        rw [hself q' hq'] at hc'
        exact absurd hc (halone (Pass.mem_scope_of_toCome hc') k q hk (hother k q hk hq))
      · exact h.alone k m q q' (hother k q hk hq) (hother m q' hm hq') hc hc'

theorem Queued.step (hi : i.Sound) (h : i.Queued c past) (ht : i.Takes s r)
    (hs : s = .endStream → i.fanout.grouping.groups ≠ [] → i.Clear) :
    r.2.Queued c (past ++ (r.1.callOn? c).toList) := by
  have quiet {j : Interleaving} (hj : j.Queued c past) (result : StepResult)
      (hr : result.callOn? c = none) : j.Queued c (past ++ (result.callOn? c).toList) := by
    rw [hr, Option.toList_none, List.append_nil]
    exact hj
  have later : Queued { i with
      fanout := { i.fanout with grouping := {} }
      streamsEnded := i.streamsEnded + 1 } c past :=
    ⟨h.inOrder, fun e he => Nat.lt_succ_of_lt (h.number_lt e he), h.latest, h.alone⟩
  cases ht with
  | call call =>
    have hc : Queued { i with fanout := (i.fanout.perform call).value.2 } c past :=
      ⟨h.inOrder, h.number_lt, h.latest, h.alone⟩
    exact quiet hc _ rfl
  | empty hg hl => exact quiet later.land _ rfl
  | start ho =>
    refine later.hold (Nat.lt_succ_self _) ?_ ?_
    · intro _ e he
      exact Nat.le_of_lt (h.number_lt e he)
    · intro hc m q _ hq hcq
      rw [i.fanout.scope_opening] at hc
      exact hs rfl (ho.resolve_left (List.ne_nil_of_mem hc)) m q hq c hcq hc
  | proceed n a p p' hp hr =>
    have hscope := p.scope_resume i.fanout.roster.contains i.fanout.config.silent a
    rw [hr] at hscope
    change p'.scope = p.toCome at hscope
    refine h.hold (hi.number_lt n p hp) (fun hc => ?_) (fun hc m q hm hq hcq => ?_)
    · rw [hscope] at hc
      exact h.latest n p hp hc
    · rw [hscope] at hc
      exact hm (h.alone m n q p hq hp hcq hc)
  | finish n a p plan lanes hp hr =>
    have hb : Queued { i with fanout := i.fanout.booked lanes } c past :=
      ⟨h.inOrder, h.number_lt, h.latest, h.alone⟩
    exact quiet hb.land _ rfl
  | discard n a p gops hp hr =>
    have hb : Queued { i with fanout := i.fanout.discard gops } c past :=
      ⟨h.inOrder, h.number_lt, h.latest, h.alone⟩
    exact quiet hb.land _ rfl
  | drop n p hp => exact quiet h.land _ rfl
  | void s n _ hp => exact quiet h _ rfl

/-- In a serial run the calls on each channel are in order. -/
theorem inOrder_of_serial (hi : i.Sound) (h : i.Queued c past) {steps : List Step}
    (hs : i.Serial steps) : InOrder (past ++ i.traffic c steps) := by
  induction steps generalizing i past with
  | nil =>
    rw [traffic, shown, trace, List.map_nil, List.filterMap_nil, List.append_nil]
    exact h.inOrder
  | cons s steps ih =>
    rw [traffic_cons, ← List.append_assoc]
    exact ih (hi.step s) (h.step hi (i.takes_step s) hs.1) hs.2

/-- A channel of the scope of a pass is called by what the pass shows or is still to come. -/
theorem callOn?_of_mem_scope {p : Pass} (hc : c ∈ p.scope) (n : Nat) :
    (∃ call, (n, call) ∈ ((StepResult.waiting n p.call?).callOn? c).toList) ∨ c ∈ p.toCome := by
  refine (Pass.mem_scope hc).imp_left fun he => ?_
  obtain ⟨call, hcall, hchannel⟩ := Option.map_eq_some_iff.mp he
  refine ⟨call, ?_⟩
  rw [hcall, Option.mem_toList]
  exact if_pos hchannel

/-- A pass that goes on again and again calls on every channel that it has to come, and the other
passes stay as they are. -/
theorem drive (h : i.Sound) {p : Pass} (hp : i.pass? n = some p) :
    ∃ k, (∀ m, m ≠ n → (i.after (List.replicate k (.resume n))).pass? m = i.pass? m) ∧
      ∀ c ∈ p.toCome, ∃ call, (n, call) ∈ i.traffic c (List.replicate k (.resume n)) := by
  -- By the stops that are left, and not by the calls: a look at the fanout calls on no channel.
  induction hk : p.stepsLeft using Nat.strongRecOn generalizing i p with
  | ind left ih =>
    have hs := h.step (.resume n)
    have ht := i.takes_resume n .accepted
    have htraffic (c : Channel) := i.traffic_cons c (.resume n)
    have hafter (steps : List Step) : i.after (.resume n :: steps) =
        (i.step (.resume n)).value.2.after steps := rfl
    have hfewer := p.stepsLeft_resume_lt i.fanout.roster.contains i.fanout.config.silent .accepted
    have hscope := p.scope_resume i.fanout.roster.contains i.fanout.config.silent .accepted
    generalize (i.step (.resume n)).value = r at *
    have gone (j : Interleaving) (hj : ∀ m, m ≠ n → j.pass? m = i.pass? m)
        (hafter : i.after [.resume n] = j) (hnone : p.toCome = []) :
        ∃ k, (∀ m, m ≠ n → (i.after (List.replicate k (.resume n))).pass? m = i.pass? m) ∧
          ∀ c ∈ p.toCome, ∃ call, (n, call) ∈ i.traffic c (List.replicate k (.resume n)) := by
      refine ⟨1, fun m hm => ?_, fun c hc => ?_⟩
      · show (i.after [.resume n]).pass? m = _
        rw [hafter, hj m hm]
      · rw [hnone] at hc
        cases hc
    cases ht with
    | proceed _ _ q p' hq hr =>
      cases hp.symm.trans hq
      rw [hr] at hfewer hscope
      change p'.scope = p.toCome at hscope
      obtain ⟨k, hother, hcome⟩ := ih _ (hk ▸ hfewer) hs (by rw [pass?_hold_self]) rfl
      refine ⟨k + 1, fun m hm => ?_, fun c hc => ?_⟩
      · rw [List.replicate_succ, hafter, hother m hm, pass?_hold_of_ne hm]
      · rw [List.replicate_succ, htraffic]
        rw [← hscope] at hc
        rcases callOn?_of_mem_scope hc n with ⟨call, hm⟩ | hc
        · exact ⟨call, List.mem_append_left _ hm⟩
        · obtain ⟨call, hm⟩ := hcome c hc
          exact ⟨call, List.mem_append_right _ hm⟩
    | finish _ _ q plan lanes hq hr =>
      cases hp.symm.trans hq
      rw [hr] at hscope
      exact gone (land { i with fanout := i.fanout.booked lanes } n)
        (fun m hm => pass?_land_of_ne hm) (hafter []) hscope.symm
    | discard _ _ q gops hq hr =>
      cases hp.symm.trans hq
      rw [hr] at hscope
      exact gone (land { i with fanout := i.fanout.discard gops } n)
        (fun m hm => pass?_land_of_ne hm) (hafter []) hscope.symm
    | void _ m hm hnone =>
      cases hm
      rw [hp] at hnone
      cases hnone

/-- A stream that ends while an earlier pass has still to call on a live channel can be overtaken:
some answers bring a call of the earlier stream after one of the later. -/
theorem exists_disorder (h : i.Sound) (hg : i.fanout.grouping.groups ≠ []) (hc : ¬i.Clear) :
    ∃ during c, .endStream ∉ during ∧ ¬InOrder (i.traffic c (.endStream :: during)) := by
  simp only [Clear, Classical.not_forall, Classical.not_not] at hc
  obtain ⟨n, p, hp, c, hcome, hlive⟩ := hc
  have hstep := step_endStream (i := i) (.inr hg)
  have hn := h.number_lt n p hp
  have hscope : c ∈ i.fanout.opening.scope := by rwa [i.fanout.scope_opening]
  have hs := h.step .endStream
  have hnew : (i.step .endStream).value.2.pass? i.streamsEnded = some i.fanout.opening := by
    rw [hstep, pass?_hold_self]
  have hold : (i.step .endStream).value.2.pass? n = some p := by
    rw [hstep, pass?_hold_of_ne (Nat.ne_of_lt hn)]
    exact hp
  -- The later pass makes all of its calls before the earlier one goes on.
  obtain ⟨k, hother, hlater⟩ := drive hs hnew
  let first : List Step := List.replicate k (.resume i.streamsEnded)
  have hold' : ((i.step .endStream).value.2.after first).pass? n = some p := by
    rw [hother n (Nat.ne_of_lt hn), hold]
  obtain ⟨k', -, hearlier⟩ := drive (hs.after first) hold'
  let second : List Step := List.replicate k' (.resume n)
  refine ⟨first ++ second, c, by simp [first, second], fun hord => ?_⟩
  rw [traffic_cons, traffic_append, ← List.append_assoc] at hord
  obtain ⟨call, hcall⟩ := hearlier c hcome
  obtain ⟨call', hcall'⟩ : ∃ call', (i.streamsEnded, call') ∈
      ((i.step .endStream).value.1.callOn? c).toList ++
        (i.step .endStream).value.2.traffic c first := by
    rcases callOn?_of_mem_scope hscope i.streamsEnded with ⟨call', hm⟩ | hc
    · refine ⟨call', List.mem_append_left _ ?_⟩
      rw [hstep]
      exact hm
    · obtain ⟨call', hm⟩ := hlater c hc
      exact ⟨call', List.mem_append_right _ hm⟩
  have hle := (List.pairwise_append.mp hord).2.2 _ hcall' _ hcall
  exact Nat.not_lt.mpr hle hn

end Interleaving

end StreamFanout
