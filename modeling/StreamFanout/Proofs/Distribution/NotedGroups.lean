import Mathlib.Data.List.Infix
import StreamFanout.Proofs.Distribution.Rounds
import StreamFanout.Proofs.Distribution.Sightings

/-!
How far the lanes of a pass have come is told by what is seen of it. A lane notes a group by the
round in which it takes the group from its queue, and as it takes one in each round the notes of a
lane are its first groups, numbered on from the start of its block. The noted groups are those of
which a unit has been handed to the sink.
-/
namespace StreamFanout

/-- The groups of a block, each by its number in the stream and its length. -/
def Block.numbered (gops : List Gop) (b : Block) : List (Nat × Nat) :=
  ((gops.zipIdx.drop b.start).take b.length).map fun e => (e.2, e.1.length)

theorem Block.length_numbered (gops : List Gop) (b : Block) :
    (b.numbered gops).length = (b.share gops).length := by
  simp [numbered, share]

theorem Block.getElem?_numbered {gops : List Gop} {b : Block} {r : Nat} {g : Gop}
    (h : (b.share gops)[r]? = some g) : (b.numbered gops)[r]? = some (b.start + r, g.length) := by
  simp only [share, List.getElem?_take, List.getElem?_drop] at h
  simp only [numbered, List.getElem?_map, List.getElem?_take, List.getElem?_drop,
    List.getElem?_zipIdx]
  split at h
  · next hr => simp [hr, h]
  · cases h

/-- The numbers that a row of blocks gives to its groups are those of the stream, each once. -/
theorem Contiguous.flatMap_numbered {gops : List Gop} {bs : List Block}
    (h : Contiguous 0 gops.length bs) :
    (bs.flatMap fun b => (b.numbered gops).map Prod.fst) = List.range gops.length := by
  have hnumbers (b : Block) : (b.numbered gops).map Prod.fst =
      ((List.range gops.length).drop b.start).take b.length := by
    have hsnd : gops.zipIdx.map Prod.snd = List.range gops.length := by
      rw [List.zipIdx_map_snd, List.range_eq_range']
    rw [← hsnd, ← List.map_drop, ← List.map_take, Block.numbered, List.map_map]
    rfl
  have hrange : Contiguous 0 (List.range gops.length).length bs := by
    simpa using h
  simp only [hnumbers]
  simpa using hrange.flatMap_cut

/-- One of the first `sent` units of a block is one of its `r`-th group. -/
def Block.Begun (gops : List Gop) (b : Block) (sent r : Nat) : Prop :=
  ∃ k, k < sent ∧ Gop.unitCount ((b.share gops).take r) ≤ k ∧
    k < Gop.unitCount ((b.share gops).take (r + 1))

theorem Block.begun_iff {gops : List Gop} {b : Block} (h : (b.share gops).length = b.length)
    {sent r : Nat} : b.Begun gops sent r ↔
      r < b.length ∧ Gop.unitCount ((b.share gops).take r) < sent := by
  constructor
  · rintro ⟨k, hk, hfirst, hlast⟩
    constructor
    · by_contra hr
      rw [List.take_of_length_le (by omega)] at hfirst hlast
      omega
    · omega
  · rintro ⟨hr, hsent⟩
    rw [← h] at hr
    exact ⟨_, hsent, Nat.le_refl _, Gop.unitCount_take_lt _ hr (Nat.lt_succ_self r)⟩

theorem drop_eq_cons {α : Type} {xs rest : List α} {k : Nat} {x : α} (h : xs.drop k = x :: rest) :
    xs[k]? = some x ∧ rest = xs.drop (k + 1) ∧ xs.length = k + (rest.length + 1) := by
  have hlength := congrArg List.length h
  rw [List.length_drop, List.length_cons] at hlength
  have hlt : k < xs.length := by omega
  rw [List.drop_eq_getElem_cons hlt, List.cons.injEq] at h
  obtain ⟨hx, hrest⟩ := h
  exact ⟨List.getElem?_eq_some_iff.mpr ⟨hlt, hx⟩, hrest.symm, by omega⟩

namespace Lane

/-- `notes` are the groups that a lane has noted, `sent` is the number of its units that have been
handed to the sink and `ahead` that of the others in the group under way. -/
structure Noted (gops : List Gop) (notes : List (Nat × Nat)) (sent ahead : Nat) (lane : Lane) :
    Prop where
  length_share : (lane.block.share gops).length = lane.block.length
  notes_begin : notes <+: lane.block.numbered gops
  begun_iff : ∀ r, r < notes.length ↔ r < lane.block.length ∧
    Gop.unitCount ((lane.block.share gops).take r) < sent
  whole : lane.failed = false → lane.queue = (lane.block.share gops).drop notes.length ∧
    sent + ahead = Gop.unitCount ((lane.block.share gops).take notes.length)
  given_up : lane.failed = true → lane.queue = [] ∧ ahead = 0

namespace Noted

variable {gops : List Gop} {notes : List (Nat × Nat)} {sent ahead : Nat} {lane : Lane}

theorem fresh {b : Block} (h : b.stop ≤ gops.length) : (fresh gops b).Noted gops [] 0 0 := by
  constructor
  · exact length_queue_fresh h
  · exact List.nil_prefix
  · simp
  · simp [Lane.fresh]
  · simp [Lane.fresh]

theorem failed_eq_false {g : Gop} {queue : List Gop} (h : lane.Noted gops notes sent ahead)
    (hq : lane.queue = g :: queue) : lane.failed = false := by
  rw [← Bool.not_eq_true]
  intro hf
  simp [(h.given_up hf).1] at hq

/-- As many groups were noted as there were rounds. -/
theorem length_notes {g : Gop} {queue : List Gop} {round : Nat} (h : lane.Noted gops notes sent 0)
    (hstep : lane.InStep round) (hq : lane.queue = g :: queue) : notes.length = round := by
  obtain ⟨hdrop, -⟩ := h.whole (h.failed_eq_false hq)
  obtain ⟨-, -, hlength⟩ := drop_eq_cons (hdrop.symm.trans hq)
  have hleft := hstep (by simp [hq])
  rw [h.length_share] at hlength
  rw [hq, List.length_cons] at hleft
  omega

/-- The group that gets under way is noted by its number, and its first unit is handed over. -/
theorem pop {g : Gop} {queue : List Gop} (h : lane.Noted gops notes sent 0)
    (hq : lane.queue = g :: queue) :
    Noted gops (notes ++ [(lane.block.start + notes.length, g.length)]) (sent + 1) g.rest.size
      { lane with queue } := by
  have hhealthy := h.failed_eq_false hq
  obtain ⟨hdrop, hsent⟩ := h.whole hhealthy
  obtain ⟨hg, hqueue, hlength⟩ := drop_eq_cons (hdrop.symm.trans hq)
  rw [h.length_share] at hlength
  have htake : Gop.unitCount ((lane.block.share gops).take (notes.length + 1)) =
      sent + g.length := by
    rw [Gop.unitCount_take_succ hg, ← hsent, Nat.add_zero]
  have hpos := g.length_pos
  have hbegun : ∀ r, r < notes.length + 1 ↔ r < lane.block.length ∧
      Gop.unitCount ((lane.block.share gops).take r) < sent + 1 := by
    intro r
    rcases Nat.lt_or_ge r (notes.length + 1) with hr | hr
    · have hle := Gop.unitCount_take_le (lane.block.share gops) (Nat.le_of_lt_succ hr)
      omega
    · have hle := Gop.unitCount_take_le (lane.block.share gops) hr
      omega
  constructor
  · exact h.length_share
  · obtain ⟨hlt, hnumbered⟩ := List.getElem?_eq_some_iff.mp (Block.getElem?_numbered hg)
    have hlead := List.concat_get_prefix h.notes_begin hlt
    rwa [List.get_eq_getElem, hnumbered] at hlead
  · simpa using hbegun
  · intro _
    rw [List.length_append, List.length_singleton]
    refine ⟨hqueue, ?_⟩
    show _ = Gop.unitCount ((lane.block.share gops).take (notes.length + 1))
    rw [htake, Gop.length]
    omega
  · intro hf
    simp [hhealthy] at hf

/-- One more unit of the group under way is handed over. -/
theorem next (h : lane.Noted gops notes sent (ahead + 1)) :
    lane.Noted gops notes (sent + 1) ahead := by
  have hhealthy : lane.failed = false := by
    rw [← Bool.not_eq_true]
    intro hf
    simpa using (h.given_up hf).2
  obtain ⟨hqueue, hsent⟩ := h.whole hhealthy
  have hbegun : ∀ r, r < notes.length ↔ r < lane.block.length ∧
      Gop.unitCount ((lane.block.share gops).take r) < sent + 1 := by
    intro r
    have hr := h.begun_iff r
    rcases Nat.lt_or_ge r notes.length with hlt | hge
    · omega
    · -- The units of the group under way come before those of the groups behind it.
      have hle := Gop.unitCount_take_le (lane.block.share gops) hge
      omega
  exact { h with
    begun_iff := hbegun
    whole := fun _ => ⟨hqueue, by omega⟩
    given_up := by simp [hhealthy] }

theorem accept (h : lane.Noted gops notes sent ahead) : lane.accept.Noted gops notes sent ahead :=
  { h with }

theorem abandon (h : lane.Noted gops notes sent ahead) (lost : Nat) :
    (lane.abandon lost).Noted gops notes sent 0 := by
  refine { h with whole := nofun, given_up := fun _ => ⟨rfl, rfl⟩ }

end Noted

/-- A lane is noted as it is seen on its channel. -/
def NotedIn (gops : List Gop) (seen : List Sighting) (ahead : Nat) (lane : Lane) : Prop :=
  lane.Noted gops (notesOn lane.channel (logOf seen)) (sentOn lane.channel (callsOf seen)).length
    ahead

theorem NotedIn.append {gops : List Gop} {seen more : List Sighting} {ahead : Nat} {lane : Lane}
    (h : lane.NotedIn gops seen ahead) (hnotes : notesOn lane.channel (logOf more) = [])
    (hsent : sentOn lane.channel (callsOf more) = []) : lane.NotedIn gops (seen ++ more) ahead := by
  unfold NotedIn
  rwa [logOf_append, callsOf_append, notesOn_append, sentOn_append, hnotes, hsent, List.append_nil,
    List.append_nil]

end Lane

namespace Pass

/-- All groups and units of the lanes of a pass are seen as they are noted and handed over. At its
turn a group is not noted yet. -/
def NotedIn (gops : List Gop) (seen : List Sighting) : Pass → Prop
  | looking _ served lane gop upcoming round =>
    (∀ l ∈ served ++ upcoming, l.NotedIn gops seen 0) ∧
      Lane.NotedIn gops seen 0 { lane with queue := gop :: lane.queue } ∧
      (notesOn lane.channel (logOf seen)).length = round
  | pushing _ served lane _ rest upcoming _ =>
    (∀ l ∈ served ++ upcoming, l.NotedIn gops seen 0) ∧ lane.NotedIn gops seen rest.length
  | ending _ lanes _ _ | booking _ lanes => ∀ l ∈ lanes, l.NotedIn gops seen 0
  | discarding _ => True

/-- What is seen of a unit that is handed over. -/
def handing (silent : Bool) (c : Channel) (u : AccessUnit) : List Sighting :=
  (announce silent c u).log.map .logged ++ [.called (.push c u)]

theorem callsOf_handing (silent : Bool) (c : Channel) (u : AccessUnit) :
    callsOf (handing silent c u) = [.push c u] := by
  cases silent <;> rfl

theorem notesOn_handing (silent : Bool) (c d : Channel) (u : AccessUnit) :
    notesOn d (logOf (handing silent c u)) = [] := by
  cases silent <;> rfl

theorem announced_handing (c : Channel) (u : AccessUnit) : Announced (handing false c u) := rfl

end Pass

namespace Progress

def NotedIn (gops : List Gop) (seen : List Sighting) : Progress → Prop
  | waiting p => p.NotedIn gops seen
  | finished _ lanes => ∀ l ∈ lanes, l.NotedIn gops seen 0
  | discarded _ => True

/-- What has been seen of a pass tells how far its lanes are and keeps to their channels. -/
structure Recorded (gops : List Gop) (silent : Bool) (seen : List Sighting) (r : Progress) :
    Prop where
  keeps : KeepsTo (r.allLanes.map Lane.channel) silent seen
  noted : r.NotedIn gops seen

/-- What is seen of a pass on the way to its next stop. -/
def sightings (x : Logged Progress) : List Sighting :=
  x.log.map .logged ++ x.value.next?.toList.map .called

/-- What was seen before and is seen now tells how far the lanes of a pass have come. -/
def Tells (gops : List Gop) (silent : Bool) (seen : List Sighting) (x : Logged Progress) : Prop :=
  x.value.Recorded gops silent (seen ++ sightings x)

variable {gops : List Gop} {silent : Bool} {seen : List Sighting}

/-- What has nothing to do with groups or units may be seen at any time. -/
theorem Recorded.append {r : Progress} (h : r.Recorded gops silent seen) {more : List Sighting}
    (hmore : ∀ s ∈ more, s.isAside = true) : r.Recorded gops silent (seen ++ more) := by
  have hnoted : r.NotedIn gops (seen ++ more) := by
    have hlane {l : Lane} {ahead : Nat} (hl : l.NotedIn gops seen ahead) :
        l.NotedIn gops (seen ++ more) ahead :=
      hl.append (notesOn_aside hmore _) (sentOn_aside hmore _)
    cases r with
    | finished plan lanes => exact fun l hl => hlane (h.noted l hl)
    | discarded gops => trivial
    | waiting p =>
      cases p with
      | looking plan served lane gop upcoming round =>
        obtain ⟨hother, hown, hround⟩ := h.noted
        refine ⟨fun l hl => hlane (hother l hl), hlane hown, ?_⟩
        rwa [logOf_append, notesOn_append, notesOn_aside hmore, List.append_nil]
      | pushing plan served lane unit rest upcoming round =>
        exact ⟨fun l hl => hlane (h.noted.1 l hl), hlane h.noted.2⟩
      | ending plan lanes c rest => exact fun l hl => hlane (h.noted l hl)
      | booking plan lanes => exact fun l hl => hlane (h.noted l hl)
      | discarding gops => trivial
  exact ⟨h.keeps.append (fun c _ => notesOn_aside hmore c) fun _ => announced_aside hmore, hnoted⟩

theorem Recorded.aside {r : Progress} (h : r.Recorded gops silent seen) {s : Sighting}
    (hs : s.isAside = true) : r.Recorded gops silent (seen ++ [s]) :=
  h.append (List.forall_mem_singleton.mpr hs)

theorem Tells.after {α : Type} {x : Logged α} {k : α → Logged Progress}
    (h : Tells gops silent (seen ++ x.log.map .logged) (k x.value)) :
    Tells gops silent seen (x >>= k) := by
  unfold Tells sightings at *
  simpa using h

end Progress

namespace Pass

variable {gops : List Gop} {silent : Bool} {seen : List Sighting} {plan : Partition}
  {served upcoming : List Lane} {lane : Lane} {u : AccessUnit} {rest : List AccessUnit}
  {round : Nat}

/-- A lane that has done with its group takes its place among those that are served. -/
theorem recorded_served (plan : Partition) {l : Lane}
    (hkeeps : KeepsTo ((served ++ lane :: upcoming).map Lane.channel) silent seen)
    (hother : ∀ m ∈ served ++ upcoming, m.NotedIn gops seen 0) (hl : l.NotedIn gops seen 0)
    (hc : l.channel = lane.channel) :
    (Progress.finished plan (served ++ [l] ++ upcoming)).Recorded gops silent seen := by
  rw [List.append_assoc, List.singleton_append]
  constructor
  · simpa [Progress.allLanes, hc] using hkeeps
  · exact Lane.forall_mem_others.mpr ⟨hother, hl⟩

theorem tells_conclude {lanes : List Lane}
    (h : (Progress.finished plan lanes).Recorded gops silent seen) :
    Progress.Tells gops silent seen (pure (.waiting (conclude plan lanes))) := by
  unfold conclude
  split
  · have hend : (Progress.waiting (.booking plan lanes)).Recorded gops silent seen :=
      ⟨h.keeps, h.noted⟩
    simpa [Progress.Tells, Progress.sightings, Progress.next?, Progress.pass?, call?] using hend
  · next c cs _ =>
    have hend := h.aside (s := .called (.endOfStream c)) rfl
    exact ⟨hend.keeps, hend.noted⟩

/-- A pass that has come to the turn of a group has noted as many groups of the lane as there were
rounds. -/
theorem tells_turn {gop : Gop} {queue : List Gop}
    (h : (Progress.finished plan (served ++ lane :: upcoming)).Recorded gops silent seen)
    (hstep : lane.InStep round) (hq : lane.queue = gop :: queue) :
    Progress.Tells gops silent seen
      (pure (.waiting (.looking plan served { lane with queue } gop upcoming round))) := by
  obtain ⟨hother, hown⟩ := Lane.forall_mem_others.mp h.noted
  have hlane : { lane with queue := gop :: queue } = lane := by rw [← hq]
  have hturn : (Progress.waiting (.looking plan served { lane with queue } gop upcoming
      round)).Recorded gops silent seen := by
    refine ⟨?_, hother, ?_, hown.length_notes hstep hq⟩
    · simpa [Progress.allLanes, lanes] using h.keeps
    · show Lane.NotedIn gops seen 0 { lane with queue := gop :: queue }
      rwa [hlane]
  simpa [Progress.Tells, Progress.sightings, Progress.next?, Progress.pass?, call?] using hturn

theorem tells_advance (left : Nat)
    (h : (Progress.finished plan (served ++ upcoming)).Recorded gops silent seen)
    (hs : ∀ l ∈ served, l.InStep (round + 1)) (hu : ∀ l ∈ upcoming, l.InStep round) :
    Progress.Tells gops silent seen
      (pure (.waiting (advance plan left round served upcoming))) := by
  have ha := advances_advance plan left round served upcoming
  generalize advance plan left round served upcoming = p at ha
  cases ha with
  | turn hup hq hp =>
    subst hup
    rw [List.forall_mem_append, List.forall_mem_cons] at hu
    rw [← List.append_assoc] at h
    exact tells_turn h hu.2.1 hq
  | round _ hd heq hq hp =>
    have hall : ∀ l ∈ served ++ upcoming, l.InStep (round + 1) :=
      List.forall_mem_append.mpr ⟨hs, fun l hl => Lane.inStep_of_queue (hd l hl)⟩
    rw [heq, List.forall_mem_append, List.forall_mem_cons] at hall
    rw [heq] at h
    exact tells_turn h hall.2.1 hq
  | ends => exact tells_conclude h

/-- A unit that is handed over moves its own lane and no other. -/
theorem tells_handing
    (hkeeps : KeepsTo ((served ++ lane :: upcoming).map Lane.channel) silent seen)
    (hother : ∀ l ∈ served ++ upcoming, l.NotedIn gops seen 0)
    (hlane : lane.Noted gops (notesOn lane.channel (logOf seen))
      ((sentOn lane.channel (callsOf seen)).length + 1) rest.length) :
    Progress.Tells gops silent seen (do
      announce silent lane.channel u
      pure (.waiting (.pushing plan served lane u rest upcoming round))) := by
  obtain ⟨hs, hu⟩ := Lane.channels_ne hkeeps.nodup
  apply Progress.Tells.after
  show (Progress.waiting _).Recorded gops silent (seen ++ _ ++ [.called (.push lane.channel u)])
  rw [List.append_assoc, ← handing]
  constructor
  · apply hkeeps.append fun c _ => notesOn_handing silent lane.channel c u
    intro hsilent
    subst hsilent
    exact announced_handing lane.channel u
  · constructor
    · intro l hl
      have hne : l.channel ≠ lane.channel := (List.mem_append.mp hl).elim (hs l) (hu l)
      apply (hother l hl).append (notesOn_handing silent _ _ u)
      simp [callsOf_handing, sentOn, SinkCall.unitOn?, hne.symm]
    · unfold Lane.NotedIn
      rw [logOf_append, callsOf_append, notesOn_append, sentOn_append, notesOn_handing,
        callsOf_handing]
      simpa [sentOn, SinkCall.unitOn?] using hlane

theorem notesOn_pushingGop (c d : Channel) (k units : Nat) :
    notesOn d (logOf [.logged (.pushingGop c k units)]) = if c = d then [(k, units)] else [] := by
  by_cases h : c = d <;> simp [logOf, notesOn, notes, Sighting.event?, LogEvent.note?, h]

/-- The group that begins is noted by the number that it has in the stream. -/
theorem tells_begin {g : Gop}
    (h : (Progress.waiting (.looking plan served lane g upcoming round)).Recorded gops silent
      seen) :
    Progress.Tells gops silent seen (do
      Logged.emit (.pushingGop lane.channel (lane.block.start + round) g.length)
      announce silent lane.channel g.first
      pure (.waiting (.pushing plan served lane g.first g.rest.toList upcoming round))) := by
  have hkeeps' : KeepsTo ((served ++ lane :: upcoming).map Lane.channel) silent seen := h.keeps
  obtain ⟨hs, hu⟩ := Lane.channels_ne hkeeps'.nodup
  obtain ⟨hothers, hown, hround⟩ := h.noted
  let seen' := seen ++ [.logged (.pushingGop lane.channel (lane.block.start + round) g.length)]
  have hkeeps : KeepsTo ((served ++ lane :: upcoming).map Lane.channel) silent seen' := by
    apply hkeeps'.append
    · intro c hc
      have hne : lane.channel ≠ c := by
        rintro rfl
        simp at hc
      rw [notesOn_pushingGop, if_neg hne]
    · exact fun _ => rfl
  have hother : ∀ l ∈ served ++ upcoming, l.NotedIn gops seen' 0 := by
    intro l hl
    have hne : l.channel ≠ lane.channel := (List.mem_append.mp hl).elim (hs l) (hu l)
    apply (hothers l hl).append _ rfl
    rw [notesOn_pushingGop, if_neg hne.symm]
  have hlane : lane.Noted gops (notesOn lane.channel (logOf seen'))
      ((sentOn lane.channel (callsOf seen')).length + 1) g.rest.toList.length := by
    have hsent : callsOf seen' = callsOf seen := by simp [seen', callsOf, Sighting.call?]
    rw [logOf_append, notesOn_append, notesOn_pushingGop, if_pos rfl, hsent, ← hround]
    exact hown.pop rfl
  apply Progress.Tells.after
  exact tells_handing hkeeps hother hlane

variable (live : Channel → Bool)

/-- What is seen when a pass leaves a stop tells how far it has come then. -/
theorem tells_resume {p : Pass} (h : (Progress.waiting p).Recorded gops silent seen)
    (hstep : p.InStep) (answer : Answer) :
    Progress.Tells gops silent seen (resume live silent answer p) := by
  -- Behind a turn the lane that had it is in step with those that were served.
  have behind {plan : Partition} {served upcoming : List Lane} {l lane : Lane} {round : Nat}
      {seen : List Sighting}
      (h : (Progress.finished plan (served ++ [l] ++ upcoming)).Recorded gops silent seen)
      (hs : ∀ m ∈ served ++ [lane], m.InStep (round + 1)) (hl : l.InStep (round + 1))
      (hu : ∀ m ∈ upcoming, m.InStep round) :
      Progress.Tells gops silent seen (pure (.waiting (next plan round (served ++ [l])
        upcoming))) := by
    rw [List.forall_mem_append] at hs
    refine tells_advance _ h ?_ hu
    rw [List.forall_mem_append, List.forall_mem_singleton]
    exact ⟨hs.1, hl⟩
  cases p with
  | looking plan served lane gop upcoming round =>
    rw [resume]
    split
    · exact tells_begin h
    · have hlost := h.aside (s := .logged (.channelLost lane.channel)) rfl
      have hown := hlost.noted.2.1.abandon 0
      have hnext := recorded_served plan (l := lane.abandon gop.length) hlost.keeps
        hlost.noted.1 { hown with } rfl
      apply Progress.Tells.after
      exact behind hnext hstep.2.1 (Lane.inStep_of_queue rfl) hstep.2.2
  | pushing plan served lane u rest upcoming round =>
    obtain ⟨hother, hown⟩ := h.noted
    obtain ⟨-, hs, hu⟩ := hstep
    cases answer with
    | refused reason =>
      have hlost := h.aside (s := .logged (.pushRefused lane.channel reason)) rfl
      have hnext := recorded_served plan (l := lane.abandon (1 + rest.length))
        hlost.keeps hlost.noted.1 (hlost.noted.2.abandon _) rfl
      apply Progress.Tells.after
      exact behind hnext hs (Lane.inStep_of_queue rfl) hu
    | accepted =>
      cases rest with
      | nil =>
        have hnext := recorded_served plan (l := lane.accept) h.keeps hother
          hown.accept rfl
        exact behind hnext hs (hs lane (by simp)) hu
      | cons v rest =>
        have hkeeps : KeepsTo ((served ++ lane.accept :: upcoming).map Lane.channel) silent
            seen := by
          simpa [Progress.allLanes, lanes, Lane.accept] using h.keeps
        exact tells_handing hkeeps hother hown.accept.next
  | ending plan lanes c rest =>
    have hend : (Progress.waiting (.booking plan lanes)).Recorded gops silent seen :=
      ⟨h.keeps, h.noted⟩
    cases rest with
    | nil =>
      simpa [Progress.Tells, Progress.sightings, resume, Progress.next?, Progress.pass?, call?]
        using hend
    | cons d rest =>
      have hnext := hend.aside (s := .called (.endOfStream d)) rfl
      exact ⟨hnext.keeps, hnext.noted⟩
  | booking plan lanes =>
    have hend : (Progress.finished plan lanes).Recorded gops silent seen := ⟨h.keeps, h.noted⟩
    simpa [Progress.Tells, Progress.sightings, resume, Progress.next?, Progress.pass?] using hend
  | discarding gops =>
    simpa [Progress.Tells, Progress.sightings, resume, Progress.next?, Progress.pass?] using
      (⟨h.keeps, trivial⟩ : (Progress.discarded gops).Recorded _ silent seen)

theorem recorded_fresh (plan : Partition) (silent : Bool) {bs : List Block}
    (hb : ∀ b ∈ bs, b.stop ≤ gops.length) (hd : (bs.map Block.channel).Nodup) :
    (Progress.finished plan (bs.map (Lane.fresh gops))).Recorded gops silent [] := by
  constructor
  · constructor
    · simpa [Progress.allLanes, Lane.fresh, Function.comp_def] using hd
    · exact fun _ _ => rfl
    · exact fun _ => rfl
  · intro l hl
    obtain ⟨b, hm, rfl⟩ := List.mem_map.mp hl
    exact Lane.Noted.fresh (hb b hm)

/-- What is seen up to the start of a pass tells where it begins. -/
theorem tells_start (silent : Bool) (hb : ∀ b ∈ plan.blocks, b.stop ≤ gops.length)
    (hd : (plan.blocks.map Block.channel).Nodup) (hseen : ∀ s ∈ seen, s.isAside = true) :
    Progress.Tells gops silent seen
      (pure (.waiting (start plan (plan.blocks.map (Lane.fresh gops))))) := by
  have h := (recorded_fresh plan silent hb hd).append hseen
  rw [List.nil_append] at h
  rcases start_eq plan (plan.blocks.map (Lane.fresh gops)) with hp | hp
  · rw [hp]
    exact tells_conclude h
  · rw [hp]
    exact tells_advance _ h nofun (Lane.inStep_fresh hb)

end Pass

end StreamFanout
