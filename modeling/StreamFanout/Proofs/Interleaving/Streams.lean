import StreamFanout.Proofs.Interleaving.Passes

/-!
What a run takes in. Passes never touch what is buffered, so between two ends of stream the groups
are those of the units accepted since the first of them.
-/
namespace StreamFanout

/-- The accepted units of the present stream after a step, when they were `us` before it. -/
def Step.onto (us : List AccessUnit) : Step → List AccessUnit
  | .call c => us ++ accepted c.arrivals
  | .endStream => []
  | _ => us

def openStream (steps : List Step) : List AccessUnit :=
  steps.foldl Step.onto []

def Step.arrivals : Step → List AccessUnit
  | .call c => accepted c.arrivals
  | _ => []

def arrivals (steps : List Step) : List AccessUnit :=
  steps.flatMap Step.arrivals

/-- The streams that a run ends, when the first of them has the units `us` already. -/
def endedStreams (us : List AccessUnit) : List Step → List (List AccessUnit)
  | [] => []
  | s :: steps => (if s = .endStream then [us] else []) ++ endedStreams (s.onto us) steps

/-- Every unit belongs to a stream that has ended or to the open one. -/
theorem flatten_endedStreams (us : List AccessUnit) (steps : List Step) :
    (endedStreams us steps).flatten ++ steps.foldl Step.onto us = us ++ arrivals steps := by
  induction steps generalizing us with
  | nil =>
    show [] ++ us = us ++ []
    rw [List.nil_append, List.append_nil]
  | cons s steps ih =>
    have hs := ih (s.onto us)
    have ha : arrivals (s :: steps) = s.arrivals ++ arrivals steps := List.flatMap_cons
    rw [endedStreams, List.foldl_cons, List.flatten_append, List.append_assoc, hs, ha]
    cases s <;> simp [Step.onto, Step.arrivals]

namespace Interleaving

variable {i : Interleaving} {n : Nat}

theorem groups_step {us : List AccessUnit}
    (hg : i.fanout.grouping.Groups (us.map AccessUnit.marked)) (s : Step) :
    (i.step s).value.2.fanout.grouping.Groups ((s.onto us).map AccessUnit.marked) := by
  have ht := i.takes_step s
  generalize (i.step s).value = r at ht
  cases ht with
  | call c =>
    have hc := (i.fanout.perform_absorbs c).groups _ hg
    rwa [← List.map_append] at hc
  | empty => exact Grouping.groups_empty
  | start => exact Grouping.groups_empty
  | void s n hs hp =>
    cases s with
    | resume m a => exact hg
    | abandon m => exact hg
    | _ => cases hs
  | _ => exact hg

/-- What is buffered after a run are the keyframe runs of its open stream. -/
theorem groups_after (config : Config) (steps : List Step) :
    ((fresh config).after steps).fanout.grouping.Groups
      ((openStream steps).map AccessUnit.marked) := by
  have run (i : Interleaving) (us : List AccessUnit)
      (hg : i.fanout.grouping.Groups (us.map AccessUnit.marked)) :
      (i.after steps).fanout.grouping.Groups
        ((steps.foldl Step.onto us).map AccessUnit.marked) := by
    induction steps generalizing i us with
    | nil => exact hg
    | cons s steps ih => exact ih _ _ (groups_step hg s)
  exact run _ [] Grouping.groups_empty

theorem length_endedStreams (i : Interleaving) (us : List AccessUnit) (steps : List Step) :
    i.streamsEnded + (endedStreams us steps).length = (i.after steps).streamsEnded := by
  induction steps generalizing i us with
  | nil => rfl
  | cons s steps ih =>
    have hs := ih (i.step s).value.2 (s.onto us)
    rw [(i.takes_step s).streamsEnded_eq] at hs
    rw [endedStreams, List.length_append]
    show _ = ((i.step s).value.2.after steps).streamsEnded
    rw [← hs]
    split
    · rw [List.length_singleton]
      omega
    · rw [List.length_nil]
      omega

/-- The stream of each pass that starts in a run is the one that was open then. -/
theorem exists_endStream {k : Nat} (us : List AccessUnit) {steps : List Step}
    (hlo : i.streamsEnded ≤ k) (hhi : k < (i.after steps).streamsEnded) :
    ∃ before during, steps = before ++ .endStream :: during ∧ (i.after before).streamsEnded = k ∧
      (endedStreams us steps)[k - i.streamsEnded]? = some (before.foldl Step.onto us) := by
  induction steps generalizing i us with
  | nil => exact absurd hhi (Nat.not_lt.mpr hlo)
  | cons s steps ih =>
    have hn := (i.takes_step s).streamsEnded_eq
    by_cases hs : s = .endStream
    · subst hs
      rw [if_pos rfl] at hn
      rw [endedStreams, if_pos rfl]
      by_cases hk : i.streamsEnded = k
      · refine ⟨[], steps, rfl, hk, ?_⟩
        rw [hk, Nat.sub_self]
        rfl
      · obtain ⟨before, during, hsteps, hbefore, hstream⟩ :=
          ih (i := (i.step .endStream).value.2) ((Step.endStream).onto us) (by omega) hhi
        refine ⟨.endStream :: before, during, by rw [hsteps]; rfl, hbefore, ?_⟩
        have hsub : k - i.streamsEnded =
            k - (i.step .endStream).value.2.streamsEnded + 1 := by omega
        rw [hsub]
        exact hstream
    · rw [if_neg hs, Nat.add_zero] at hn
      rw [endedStreams, if_neg hs, List.nil_append, ← hn]
      obtain ⟨before, during, hsteps, hbefore, hstream⟩ :=
        ih (i := (i.step s).value.2) (s.onto us) (by omega) hhi
      exact ⟨s :: before, during, by rw [hsteps]; rfl, hbefore, hstream⟩

theorem mem_live_step {c : Channel} (hc : c ∈ i.fanout.live) {s : Step}
    (hs : s ≠ .call (.release c)) : c ∈ (i.step s).value.2.fanout.live := by
  have ht := i.takes_step s
  generalize (i.step s).value = r at ht
  cases ht with
  | call call => exact Fanout.mem_live_perform hc fun he => hs (congrArg Step.call he)
  | _ => exact hc

/-- A channel that is not released before a pass ends is live at each stop that the pass leaves. -/
theorem live_of_mem_stops (hn : n < i.streamsEnded) {c : Channel} (hc : c ∈ i.fanout.live)
    {steps : List Step} (hr : ∀ xs ys, steps = xs ++ .call (.release c) :: ys → i.Ends n xs) :
    ∀ s ∈ i.stops n steps, s.reply.roster.contains c = true := by
  induction steps generalizing i with
  | nil => exact nofun
  | cons s steps ih =>
    cases hp : i.pass? n with
    | none =>
      rw [(unseen hn hp _).2.1]
      exact nofun
    | some p =>
      have hs : s ≠ .call (.release c) := by
        rintro rfl
        exact i.not_ends_nil n (hr [] steps rfl)
      have ht := i.takes_step s
      have hn' := Nat.lt_of_lt_of_le hn ht.streamsEnded_le
      intro r hm
      rcases List.mem_append.mp hm with hm | hm
      · cases s with
        | resume m a =>
          rw [Option.mem_toList, stop?] at hm
          split at hm
          · rw [hp] at hm
            rw [← Option.some.inj hm]
            exact Roster.contains_iff.mpr hc
          · cases hm
        | _ => cases hm
      · by_cases he : ∃ result, (i.step s).value.1 = .ended n result
        · obtain ⟨result, he⟩ := he
          rw [(unseen hn' (ht.pass?_of_ended he) steps).2.1] at hm
          cases hm
        · refine ih hn' (mem_live_step hc hs) (fun xs ys hx => ?_) r hm
          have hend := hr (s :: xs) ys (by rw [hx, List.cons_append])
          exact (ends_cons fun result hres => he ⟨result, hres⟩).mp hend

/-- Where it finds a channel live at all of its stops, the feedback of a pass has the channel
live. -/
theorem feedback_live {c : Channel} {during : List Step}
    (h : ∀ s ∈ i.stops i.streamsEnded (.endStream :: during), s.reply.roster.contains c = true)
    (g : Nat) : (i.feedback during).live c g = true := by
  show (((i.stops i.streamsEnded (.endStream :: during)).filterMap Stop.found?).lookup
    (c, g)).getD true = true
  generalize i.stops i.streamsEnded (.endStream :: during) = stops at h
  induction stops with
  | nil => rfl
  | cons s stops ih =>
    obtain ⟨hs, hstops⟩ := List.forall_mem_cons.mp h
    cases hf : s.found? with
    | none =>
      rw [List.filterMap_cons_none hf]
      exact ih hstops
    | some e =>
      obtain ⟨t, b⟩ := e
      rw [List.filterMap_cons_some hf, List.lookup_cons]
      split
      · next heq =>
        obtain ⟨turn, -, he⟩ := Option.map_eq_some_iff.mp hf
        obtain ⟨rfl, rfl⟩ := Prod.mk.inj he
        have hc : c = turn.1 := congrArg Prod.fst (beq_iff_eq.mp heq)
        rw [← hc]
        exact hs
      · exact ih hstops

end Interleaving

end StreamFanout
