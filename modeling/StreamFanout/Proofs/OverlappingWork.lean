import StreamFanout.Proofs.Interleaving.Outcomes
import StreamFanout.Proofs.Interleaving.Views

/-!
Work that overlaps a pass. Units and channels of the next stream may come in while a pass is under
way, and it makes no difference: it is as if all of that had been done after the pass.
-/
namespace StreamFanout.Interleaving

variable {i : Interleaving}

/-- A pass calls on the channels that were live when its stream ended, and on no others. -/
theorem mem_live_of_calls (h : i.Sound) {during : List Step} {call : SinkCall}
    (hc : call ∈ i.calls i.streamsEnded (.endStream :: during)) : call.channel ∈ i.fanout.live := by
  by_cases hv : i.fanout.grouping.groups = [] ∨ i.fanout.live = []
  · rw [calls_endStream_vain h hv] at hc
    cases hc
  · obtain ⟨hg, hl⟩ := not_or.mp hv
    rcases List.mem_append.mp ((calls_endStream h hg hl during).1.subset hc) with hpush | hend
    · obtain ⟨s, hs, rfl⟩ := List.mem_map.mp hpush
      have hs := ((i.feedback during).handed_sublist [] 0 _).subset hs
      rw [← i.fanout.channels_blocks]
      exact mem_channels_of_mem_schedule hs
    · obtain ⟨c, hlive, rfl⟩ := List.mem_map.mp hend
      exact hlive

/-- Right after a stream has ended its pass finds all of its channels live. -/
theorem abreast_endStream (h : i.Sound) (alone : Prop) :
    Abreast i.fanout.live i.streamsEnded alone (i.step .endStream).value.2
      (i.step .endStream).value.2 := by
  have h' := h.step .endStream
  have ht := i.takes_endStream
  have hlive : ∀ c ∈ i.fanout.live, c ∈ (i.step .endStream).value.2.fanout.live :=
    fun c hc => mem_live_step hc nofun
  refine ⟨h', h', rfl, i.lt_streamsEnded [], rfl, fun p hp l hl => ?_, hlive, hlive, fun _ => rfl⟩
  generalize (i.step .endStream).value = r at ht hp
  cases ht with
  | empty hg hne =>
    rw [pass?_land_self] at hp
    cases hp
  | start ho =>
    rw [pass?_hold_self] at hp
    cases hp
    by_cases hne : i.fanout.live = []
    · rw [Fanout.opening, if_pos hne] at hl
      cases hl
    · rw [← i.fanout.channels_blocks, ← Fanout.blocks_opening hne, ← Pass.channels_eq_blocks]
      exact List.mem_map_of_mem hl
  | void _ m hs _ => cases hs

/-- The steps of a run with the calls of the host moved behind all other steps. -/
def postponed (during : List Step) : List Step :=
  during.filter (!·.isCall) ++ during.filter Step.isCall

variable {during : List Step}

theorem mem_postponed {s : Step} : s ∈ postponed during ↔ s ∈ during := by
  rw [postponed, List.mem_append, List.mem_filter, List.mem_filter]
  cases s.isCall <;> simp

theorem filter_postponed {p : Step → Bool} {b : Bool} (h : ∀ s, p s = true → s.isCall = b) :
    (postponed during).filter p = during.filter p := by
  have hcall : ∀ s, (p s && s.isCall) = (b && p s) := by
    intro s
    cases hp : p s with
    | false => cases b <;> rfl
    | true => rw [h s hp]; cases b <;> rfl
  have hother : ∀ s, (p s && !s.isCall) = (!b && p s) := by
    intro s
    cases hp : p s with
    | false => cases b <;> rfl
    | true => rw [h s hp]; cases b <;> rfl
  simp only [postponed, List.filter_append, List.filter_filter, hcall, hother]
  cases b <;> simp

theorem filter_isCall_postponed :
    (postponed during).filter Step.isCall = during.filter Step.isCall :=
  filter_postponed (b := true) fun _ h => h

theorem filter_pass?_postponed (n : Nat) :
    (postponed during).filter (·.pass? = some n) = during.filter (·.pass? = some n) := by
  refine filter_postponed (b := false) fun s hs => ?_
  cases s with
  | call c => cases of_decide_eq_true hs
  | _ => rfl

/-- Calls that the host makes while a pass is under way may be made after it instead: the pass
shows and logs the same, each call gives back and logs the same, and the channels and what is
buffered are the same in the end. So are the counters, unless another pass went on meanwhile. The
pass calls on no channel that was registered after its stream had ended. -/
theorem overlap_postponed (config : Config) (before during : List Step) :
    let i := (fresh config).after before
    let n := i.streamsEnded
    let now := .endStream :: during
    let later := .endStream :: postponed during
    (∀ s ∈ during, s.Overlaps i.fanout.live) →
      (i.trace later).filter (·.value.pass? = some n) =
          (i.trace now).filter (·.value.pass? = some n) ∧
        (i.trace later).filter (·.value.isCalled) = (i.trace now).filter (·.value.isCalled) ∧
        (i.after later).pass? n = (i.after now).pass? n ∧
        (i.after later).fanout.roster = (i.after now).fanout.roster ∧
        (i.after later).fanout.grouping = (i.after now).fanout.grouping ∧
        ((∀ s ∈ during, ∀ m, s.pass? = some m → m = n) →
          (i.after later).fanout = (i.after now).fanout) ∧
        ∀ call ∈ i.calls n now, call.channel ∈ i.fanout.live := by
  intro i n now later ho
  have h : i.Sound := (sound_fresh config).after before
  have ho' : ∀ s ∈ postponed during, s.Overlaps i.fanout.live :=
    fun s hs => ho s (mem_postponed.mp hs)
  let j := (i.step .endStream).value.2
  let alone := ∀ s ∈ during, ∀ m, s.pass? = some m → m = n
  have hstart : Abreast i.fanout.live n alone j j := abreast_endStream h alone
  -- Both runs look to the pass, and to the host, like the run with their own steps only.
  obtain ⟨hseen, hnow⟩ := pass_view hstart ho id
  obtain ⟨hseen', hlater⟩ := pass_view hstart ho'
    fun hal s hs => hal s (mem_postponed.mp hs)
  obtain ⟨hcalled, hintake⟩ := host_view (show j.fanout.intake = j.fanout.intake from rfl) ho
  obtain ⟨hcalled', hintake'⟩ := host_view (show j.fanout.intake = j.fanout.intake from rfl) ho'
  rw [filter_pass?_postponed] at hseen' hlater
  rw [filter_isCall_postponed] at hcalled' hintake'
  have hsame : (j.after (postponed during)).fanout.intake = (j.after during).fanout.intake :=
    hintake'.trans hintake.symm
  refine ⟨?_, ?_, hlater.pass_eq.trans hnow.pass_eq.symm,
    congrArg (fun x => x.2.1) hsame, congrArg (fun x => x.2.2.1) hsame, fun hal => ?_,
    fun call hc => mem_live_of_calls h hc⟩
  · show List.filter _ (_ :: j.trace (postponed during)) = List.filter _ (_ :: j.trace during)
    rw [List.filter_cons, List.filter_cons, hseen', hseen]
  · show List.filter _ (_ :: j.trace (postponed during)) = List.filter _ (_ :: j.trace during)
    rw [List.filter_cons, List.filter_cons, hcalled', hcalled]
  · exact Fanout.eq_of_intake hsame ((hlater.outcomes_eq hal).trans (hnow.outcomes_eq hal).symm)

/-- While a pass over two channels is under way the next stream begins, and a third channel is
registered, released and registered once more. -/
theorem overlap_postponed_third_channel :
    let frame (pts : UInt64) (isKeyframe : Bool) : AccessUnit :=
      { pts, payload := ⟨#[1]⟩, isKeyframe }
    let before : List Step := [.call (.request (some ⟨0⟩)), .call (.request (some ⟨7⟩)),
      .call (.arriveAll [frame 0 true, frame 1 false, frame 2 true])]
    let refused : Answer := .refused (.channelClosed ⟨7⟩)
    let during : List Step := [.call (.arrive (frame 10 false)), .resume 0, .resume 0,
      .call (.request (some ⟨3⟩)), .resume 0, .call (.release ⟨3⟩), .resume 0, .resume 0 refused,
      .call (.arrive (frame 11 true)), .resume 0, .call (.request (some ⟨3⟩)), .resume 0, .resume 0]
    let later : List Step := [.resume 0, .resume 0, .resume 0, .resume 0, .resume 0 refused,
      .resume 0, .resume 0, .resume 0, .call (.arrive (frame 10 false)),
      .call (.request (some ⟨3⟩)), .call (.release ⟨3⟩), .call (.arrive (frame 11 true)),
      .call (.request (some ⟨3⟩))]
    let i := (fresh {}).after before
    (i.after (.endStream :: later)).fanout = (i.after (.endStream :: during)).fanout ∧
      ∀ call ∈ i.calls 0 (.endStream :: during), call.channel ∈ [⟨0⟩, ⟨7⟩] := by
  intro frame before refused during later i
  have hlive : i.fanout.live = [⟨0⟩, ⟨7⟩] := by decide +kernel
  have hoverlaps : ∀ s ∈ during, s.Overlaps i.fanout.live := by
    rw [hlive]
    simp [during, Step.Overlaps, HostCall.Overlaps]
  have halone : ∀ s ∈ during, ∀ m, s.pass? = some m → m = 0 := by
    simp [during, Step.pass?]
  obtain ⟨-, -, -, -, -, hfanout, hcalls⟩ := overlap_postponed {} before during hoverlaps
  exact ⟨hfanout halone, fun call hc => hlive ▸ hcalls call hc⟩

end StreamFanout.Interleaving
