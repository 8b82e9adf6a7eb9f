import StreamFanout.Proofs.Distribution.Channels

/-!
What a pass has still to push on one channel: the group under way there and the groups that have not
begun. Between two turns of the channel nothing becomes of these. At its turn the next group begins
when the channel is found live, and all of them are given up when it is not; what happened to the
registry in between leaves no trace.
-/
namespace StreamFanout

namespace Lane

def queueOn (c : Channel) (lanes : List Lane) : List Gop :=
  lanes.flatMap fun l => if l.channel = c then l.queue else []

variable {c : Channel} {lane : Lane} {served upcoming : List Lane}

theorem queueOn_append (c : Channel) (xs ys : List Lane) :
    queueOn c (xs ++ ys) = queueOn c xs ++ queueOn c ys :=
  List.flatMap_append

theorem queueOn_cons (c : Channel) (l : Lane) (ls : List Lane) :
    queueOn c (l :: ls) = (if l.channel = c then l.queue else []) ++ queueOn c ls :=
  List.flatMap_cons

theorem queueOn_eq_nil {lanes : List Lane} (h : ∀ l ∈ lanes, l.channel ≠ c) :
    queueOn c lanes = [] := by
  refine List.flatMap_eq_nil_iff.mpr fun l hl => ?_
  rw [if_neg (h l hl)]

theorem Drained.queueOn_eq {lanes : List Lane} (h : Drained lanes) (c : Channel) :
    queueOn c lanes = [] := by
  refine List.flatMap_eq_nil_iff.mpr fun l hl => ?_
  rw [h l hl, ite_self]

theorem queueOn_self (hd : ((served ++ lane :: upcoming).map channel).Nodup)
    (hc : lane.channel = c) : queueOn c (served ++ lane :: upcoming) = lane.queue := by
  obtain ⟨hs, hu⟩ := channels_ne hd
  subst hc
  rw [queueOn_append, queueOn_cons, if_pos rfl, queueOn_eq_nil hs, queueOn_eq_nil hu,
    List.nil_append, List.append_nil]

theorem queueOn_congr {l : Lane} (hl : l.channel = lane.channel) (hq : l.queue = lane.queue) :
    queueOn c (served ++ l :: upcoming) = queueOn c (served ++ lane :: upcoming) := by
  rw [queueOn_append, queueOn_append, queueOn_cons, queueOn_cons, hl, hq]

/-- What becomes of another lane is nothing to the queue of a channel. -/
theorem queueOn_replace {l : Lane} (hc : lane.channel ≠ c) (hl : l.channel = lane.channel) :
    queueOn c (served ++ l :: upcoming) = queueOn c (served ++ lane :: upcoming) := by
  rw [queueOn_append, queueOn_append, queueOn_cons, queueOn_cons, if_neg hc, if_neg (hl ▸ hc)]

theorem queueOn_abandon_self (hd : ((served ++ lane :: upcoming).map channel).Nodup)
    (hc : lane.channel = c) (lost : Nat) :
    queueOn c (served ++ lane.abandon lost :: upcoming) = [] := by
  have hd' : ((served ++ lane.abandon lost :: upcoming).map channel).Nodup := by
    simpa [abandon] using hd
  exact queueOn_self hd' hc

theorem queueOn_fresh {bs : List Block} (hd : (bs.map Block.channel).Nodup) {b : Block}
    (hb : b ∈ bs) (gops : List Gop) :
    queueOn b.channel (bs.map (fresh gops)) = b.share gops := by
  obtain ⟨xs, ys, rfl⟩ := List.append_of_mem hb
  have hd' : ((xs.map (fresh gops) ++ fresh gops b :: ys.map (fresh gops)).map channel).Nodup := by
    simpa [Function.comp_def, fresh] using hd
  rw [List.map_append, List.map_cons]
  exact queueOn_self hd' rfl

end Lane

namespace Pass

/-- The groups of `c` that a pass has not begun. At the turn of a group the group has left its
queue and has not begun. -/
def unbegun (c : Channel) : Pass → List Gop
  | looking _ served lane gop upcoming _ =>
    Lane.queueOn c (served ++ { lane with queue := gop :: lane.queue } :: upcoming)
  | p => Lane.queueOn c p.lanes

/-- The present unit and what follows it in its group, when the present call is a push on `c`. -/
def underway (c : Channel) : Pass → List AccessUnit
  | pushing _ _ lane unit rest .. => if lane.channel = c then unit :: rest else []
  | _ => []

/-- The units that a pass may push on `c`, the present one included. -/
def outstanding (c : Channel) (p : Pass) : List AccessUnit :=
  p.underway c ++ Gop.flatten (p.unbegun c)

def remainder (c : Channel) (p : Pass) : List AccessUnit :=
  (p.underway c).tail ++ Gop.flatten (p.unbegun c)

theorem underway_eq (c : Channel) (p : Pass) :
    p.underway c = (p.unitOn? c).toList ++ (p.underway c).tail := by
  cases p with
  | pushing plan served lane unit rest upcoming round =>
    simp only [unitOn?, call?, Option.bind_some, SinkCall.unitOn?, underway]
    split <;> rfl
  | _ => rfl

theorem outstanding_eq (c : Channel) (p : Pass) :
    p.outstanding c = (p.unitOn? c).toList ++ p.remainder c := by
  rw [outstanding, remainder, ← List.append_assoc, ← underway_eq]

theorem remainder_eq_nil {c : Channel} {p : Pass} (h : p.outstanding c = []) :
    p.unitOn? c = none ∧ p.remainder c = [] := by
  rw [outstanding_eq] at h
  obtain ⟨hcall, hr⟩ := List.append_eq_nil_iff.mp h
  exact ⟨Option.toList_eq_nil_iff.mp hcall, hr⟩

theorem mem_channels_of_outstanding {c : Channel} {p : Pass} (h : p.outstanding c ≠ []) :
    c ∈ p.lanes.map Lane.channel := by
  refine Classical.byContradiction fun hc => h ?_
  have hne : ∀ l ∈ p.lanes, l.channel ≠ c := fun l hl he => hc (he ▸ List.mem_map_of_mem hl)
  have hu : p.underway c = [] := by
    cases p with
    | pushing plan served lane unit rest upcoming round =>
      exact if_neg (hne lane (List.mem_append_right _ List.mem_cons_self))
    | _ => rfl
  have hq : p.unbegun c = [] := by
    cases p with
    | looking plan served lane gop upcoming round =>
      exact Lane.queueOn_eq_nil (Lane.forall_mem_replace hne
        (hne lane (List.mem_append_right _ List.mem_cons_self)))
    | _ => exact Lane.queueOn_eq_nil hne
  rw [outstanding, hu, hq]
  rfl

end Pass

namespace Progress

def unbegun (c : Channel) : Progress → List Gop
  | waiting p => p.unbegun c
  | r => Lane.queueOn c r.allLanes

def underway (c : Channel) : Progress → List AccessUnit
  | waiting p => p.underway c
  | finished .. | discarded _ => []

def outstanding (c : Channel) (r : Progress) : List AccessUnit :=
  r.underway c ++ Gop.flatten (r.unbegun c)

end Progress

namespace Pass

/-- To go on to the next turn begins no group and gives none up. -/
theorem Advances.untouched {plan : Partition} {left round : Nat} {served upcoming : List Lane}
    {p : Pass} (h : Advances plan left round served upcoming p) (c : Channel) :
    p.underway c = [] ∧ p.unbegun c = Lane.queueOn c (served ++ upcoming) := by
  rcases h.lanes_eq with ⟨before, lane, gop, queue, after, r, hl, hq, rfl⟩ | rfl
  · refine ⟨rfl, ?_⟩
    rw [hl, unbegun]
    exact Lane.queueOn_congr rfl hq.symm
  · unfold conclude
    split <;> exact ⟨rfl, rfl⟩

theorem start_untouched (plan : Partition) (lanes : List Lane) (c : Channel) :
    (start plan lanes).underway c = [] ∧ (start plan lanes).unbegun c = Lane.queueOn c lanes := by
  rcases start_eq plan lanes with h | h
  · rw [h]
    unfold conclude
    split <;> exact ⟨rfl, rfl⟩
  · rw [h]
    exact (advances_advance plan _ 0 [] lanes).untouched c

/-- What becomes of a channel when a pass leaves the stop `p`. -/
inductive Leaves (live : Channel → Bool) (c : Channel) (p : Pass) : Answer → Progress → Prop
  /-- The stop is about something else. -/
  | waits {answer : Answer} {r : Progress} (ht : ∀ g, p.turn? ≠ some (c, g))
    (hn : p.underway c = []) (hu : r.underway c = []) (hq : r.unbegun c = p.unbegun c) :
    Leaves live c p answer r
  /-- The next group begins. -/
  | begins {answer : Answer} {r : Progress} {number : Nat} {g : Gop}
    (ht : p.turn? = some (c, number)) (hl : live c = true) (hn : p.underway c = [])
    (hu : r.underway c = g.units) (hq : p.unbegun c = g :: r.unbegun c) : Leaves live c p answer r
  /-- The channel is not live at the turn of its next group and is given up. -/
  | lost {answer : Answer} {r : Progress} {number : Nat} (ht : p.turn? = some (c, number))
    (hl : live c = false) (hn : p.underway c = []) (hu : r.underway c = [])
    (hq : r.unbegun c = []) : Leaves live c p answer r
  /-- A unit of the group under way is accepted. -/
  | proceeds {r : Progress} (hn : p.underway c ≠ []) (hu : r.underway c = (p.underway c).tail)
    (hq : r.unbegun c = p.unbegun c) : Leaves live c p .accepted r
  /-- A unit of the channel is refused, and the channel is given up. -/
  | givenUp {answer : Answer} {r : Progress} (ha : answer ≠ .accepted) (hn : p.underway c ≠ [])
    (hu : r.underway c = []) (hq : r.unbegun c = []) : Leaves live c p answer r

variable {live : Channel → Bool} {c : Channel} {plan : Partition} {served upcoming : List Lane}
  {lane : Lane} (silent : Bool) (round : Nat)

/-- Behind a turn nothing is under way, and what has not begun is as the lanes have it. -/
theorem next_untouched (plan : Partition) (round : Nat) (served : List Lane) (l : Lane)
    (upcoming : List Lane) (c : Channel) :
    (next plan round (served ++ [l]) upcoming).underway c = [] ∧
      (next plan round (served ++ [l]) upcoming).unbegun c =
        Lane.queueOn c (served ++ l :: upcoming) := by
  have h := (advances_advance plan (plan.rounds - (round + 1)) round (served ++ [l])
    upcoming).untouched c
  rwa [List.append_assoc] at h

theorem leaves_looking (gop : Gop) (hd : ((served ++ lane :: upcoming).map Lane.channel).Nodup)
    (answer : Answer) :
    Leaves live c (looking plan served lane gop upcoming round) answer
      (resume live silent answer (looking plan served lane gop upcoming round)).value := by
  have hd' : ((served ++ { lane with queue := gop :: lane.queue } :: upcoming).map
      Lane.channel).Nodup := by simpa using hd
  obtain ⟨hu, hq⟩ := next_untouched plan round served (lane.abandon gop.length) upcoming c
  by_cases hc : lane.channel = c
  · have ht : (looking plan served lane gop upcoming round).turn? =
        some (c, lane.block.start + round) := by rw [← hc]; rfl
    rw [resume]
    split
    · next hl =>
      refine .begins ht (hc ▸ hl) rfl (if_pos hc) ?_
      rw [unbegun, Lane.queueOn_self hd' hc]
      exact congrArg (gop :: ·) (Lane.queueOn_self hd hc).symm
    · next hl =>
      refine .lost ht (hc ▸ Bool.eq_false_iff.mpr hl) rfl hu ?_
      exact hq.trans (Lane.queueOn_abandon_self hd hc gop.length)
  · have hqueue : Lane.queueOn c (served ++ lane :: upcoming) =
        unbegun c (looking plan served lane gop upcoming round) :=
      (Lane.queueOn_replace (l := { lane with queue := gop :: lane.queue }) hc rfl).symm
    have hturn : ∀ g, (looking plan served lane gop upcoming round).turn? ≠ some (c, g) :=
      fun g he => hc (congrArg Prod.fst (Option.some.inj he))
    rw [resume]
    split
    · exact .waits hturn rfl (if_neg hc) hqueue
    · refine .waits hturn rfl hu (hq.trans (Eq.trans ?_ hqueue))
      exact Lane.queueOn_replace hc rfl

/-- The answer to a push on the channel itself. -/
theorem leaves_pushing_self (unit : AccessUnit) (rest : List AccessUnit)
    (hd : ((served ++ lane :: upcoming).map Lane.channel).Nodup) (hc : lane.channel = c)
    (answer : Answer) :
    Leaves live c (pushing plan served lane unit rest upcoming round) answer
      (resume live silent answer (pushing plan served lane unit rest upcoming round)).value := by
  have hn : underway c (pushing plan served lane unit rest upcoming round) = unit :: rest :=
    if_pos hc
  have hne : underway c (pushing plan served lane unit rest upcoming round) ≠ [] := by
    rw [hn]
    exact List.cons_ne_nil _ _
  cases answer with
  | accepted =>
    have haccept : Lane.queueOn c (served ++ lane.accept :: upcoming) =
        Lane.queueOn c (served ++ lane :: upcoming) := Lane.queueOn_congr rfl rfl
    cases rest with
    | nil =>
      obtain ⟨hu, hq⟩ := next_untouched plan round served lane.accept upcoming c
      exact .proceeds hne (by rw [hn]; exact hu) (hq.trans haccept)
    | cons v rest => exact .proceeds hne (by rw [hn]; exact if_pos hc) haccept
  | refused reason =>
    obtain ⟨hu, hq⟩ := next_untouched plan round served
      (lane.abandon (1 + rest.length)) upcoming c
    exact .givenUp nofun hne hu (hq.trans (Lane.queueOn_abandon_self hd hc _))

/-- The answer to a push on another channel. -/
theorem leaves_pushing_other (unit : AccessUnit) (rest : List AccessUnit)
    (hc : lane.channel ≠ c) (answer : Answer) :
    Leaves live c (pushing plan served lane unit rest upcoming round) answer
      (resume live silent answer (pushing plan served lane unit rest upcoming round)).value := by
  have hn : underway c (pushing plan served lane unit rest upcoming round) = [] := if_neg hc
  have hturn : ∀ g, (pushing plan served lane unit rest upcoming round).turn? ≠ some (c, g) := nofun
  have behind (l : Lane) (hl : l.channel = lane.channel) :=
    (next_untouched plan round served l upcoming c).imp_right
      (·.trans (Lane.queueOn_replace hc hl))
  cases answer with
  | accepted =>
    cases rest with
    | nil =>
      obtain ⟨hu, hq⟩ := behind lane.accept rfl
      exact .waits hturn hn hu hq
    | cons v rest => exact .waits hturn hn (if_neg hc) (Lane.queueOn_replace hc rfl)
  | refused reason =>
    obtain ⟨hu, hq⟩ := behind (lane.abandon (1 + rest.length)) rfl
    exact .waits hturn hn hu hq

theorem leaves_resume (live : Channel → Bool) (c : Channel) {p : Pass}
    (hd : (p.lanes.map Lane.channel).Nodup) (answer : Answer) :
    Leaves live c p answer (resume live silent answer p).value := by
  cases p with
  | looking plan served lane gop upcoming round => exact leaves_looking silent round gop hd answer
  | pushing plan served lane unit rest upcoming round =>
    by_cases hc : lane.channel = c
    · exact leaves_pushing_self silent round unit rest hd hc answer
    · exact leaves_pushing_other silent round unit rest hc answer
  | ending plan lanes d rest =>
    refine .waits nofun rfl ?_ ?_
    · cases rest <;> rfl
    · cases rest <;> rfl
  | booking plan lanes => exact .waits nofun rfl rfl rfl
  | discarding gops => exact .waits nofun rfl rfl rfl

/-- What may be pushed on a channel behind a stop is what may be pushed after it, or nothing. -/
theorem outstanding_resume (live : Channel → Bool) (c : Channel) {p : Pass}
    (hd : (p.lanes.map Lane.channel).Nodup) (answer : Answer) :
    (resume live silent answer p).value.outstanding c = p.remainder c ∨
      (resume live silent answer p).value.outstanding c = [] := by
  unfold Progress.outstanding remainder
  cases leaves_resume silent live c hd answer with
  | waits _ hn hu hq => exact .inl (by rw [hn, hu, hq]; rfl)
  | begins _ _ hn hu hq => exact .inl (by rw [hn, hu, hq, Gop.flatten_cons]; rfl)
  | lost _ _ _ hu hq => exact .inr (by rw [hu, hq]; rfl)
  | proceeds _ hu hq => exact .inl (by rw [hu, hq])
  | givenUp _ _ hu hq => exact .inr (by rw [hu, hq]; rfl)

/-- On a channel that is live, a stop where no unit of the channel is refused takes nothing away. -/
theorem outstanding_resume_kept {c : Channel} (hl : live c = true) {p : Pass}
    (hd : (p.lanes.map Lane.channel).Nodup) {answer : Answer}
    (ha : p.call?.map SinkCall.channel = some c → answer = .accepted) :
    (resume live silent answer p).value.outstanding c = p.remainder c := by
  unfold Progress.outstanding remainder
  cases leaves_resume silent live c hd answer with
  | waits _ hn hu hq => rw [hn, hu, hq]; rfl
  | begins _ _ hn hu hq => rw [hn, hu, hq, Gop.flatten_cons]; rfl
  | lost _ hf => rw [hl] at hf; cases hf
  | proceeds _ hu hq => rw [hu, hq]
  | givenUp hr hn =>
    refine absurd (ha ?_) hr
    cases p with
    | pushing plan served lane unit rest upcoming round =>
      exact congrArg some (Classical.not_not.mp fun hc => hn (if_neg hc))
    | _ => exact absurd rfl hn

end Pass

end StreamFanout
