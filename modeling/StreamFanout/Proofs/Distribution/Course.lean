import Mathlib.Data.List.Nodup
import StreamFanout.Channel.Roster
import StreamFanout.Proofs.Distribution.Agenda
import StreamFanout.Proofs.Distribution.Rounds

/-!
The course of a pass: the calls that it makes on the sink as it goes from stop to stop. The answers,
and what the registry holds at the turns of the groups, decide which units of the agenda are handed
to the sink, by one walk over the agenda that knows nothing of lanes, queues and rounds; a pass
makes exactly those pushes and then the ends of stream.
-/
namespace StreamFanout

/-- What decides the course of a pass: `live c g` tells whether the registry held `c` at the turn of
group `g`, and `answer k` is the answer to the call that `k` others were answered before. -/
structure Feedback where
  live : Channel → Nat → Bool
  answer : Nat → Answer

namespace Feedback

variable (fb : Feedback)

/-- The slots whose units are handed to the sink, when the channels in `lost` get nothing and `k`
calls were answered before. A channel is looked up where one of its groups begins. -/
def handed (lost : List Channel) (k : Nat) : List Slot → List Slot
  | [] => []
  | s :: slots =>
    if s.channel ∈ lost then handed lost k slots
    else if s.place = 0 ∧ fb.live s.channel s.gop = false then handed (s.channel :: lost) k slots
    else s :: handed (if fb.answer k = .accepted then lost else s.channel :: lost) (k + 1) slots

/-- A lost channel may as well have no slots at all. -/
theorem handed_append (lost lost' : List Channel) (k : Nat) (slots : List Slot) :
    fb.handed (lost ++ lost') k slots =
      fb.handed lost k (slots.filter fun s => s.channel ∉ lost') := by
  induction slots generalizing lost k with
  | nil => rfl
  | cons s slots ih =>
    by_cases hs' : s.channel ∈ lost'
    · rw [handed, if_pos (List.mem_append_right _ hs'), ih,
        List.filter_cons_of_neg (by simpa using hs')]
    · rw [List.filter_cons_of_pos (by simpa using hs'), handed, handed]
      have hmem : s.channel ∈ lost ++ lost' ↔ s.channel ∈ lost := by simp [hs']
      have hcons := ih (s.channel :: lost)
      rw [List.cons_append] at hcons
      by_cases hs : s.channel ∈ lost
      · rw [if_pos (hmem.mpr hs), if_pos hs, ih]
      · rw [if_neg (hs ∘ hmem.mp), if_neg hs]
        by_cases hl : s.place = 0 ∧ fb.live s.channel s.gop = false
        · rw [if_pos hl, if_pos hl, hcons]
        · rw [if_neg hl, if_neg hl]
          by_cases ha : fb.answer k = .accepted
          · rw [if_pos ha, if_pos ha, ih]
          · rw [if_neg ha, if_neg ha, hcons]

theorem handed_singleton (c : Channel) (k : Nat) (slots : List Slot) :
    fb.handed [c] k slots = fb.handed [] k (slots.filter (·.channel ≠ c)) := by
  have h := fb.handed_append [] [c] k slots
  simpa using h

theorem handed_sublist (lost : List Channel) (k : Nat) (slots : List Slot) :
    (fb.handed lost k slots).Sublist slots := by
  induction slots generalizing lost k with
  | nil => exact List.Sublist.refl _
  | cons s slots ih =>
    rw [handed]
    split
    · exact (ih _ _).cons s
    · split
      · exact (ih _ _).cons s
      · exact (ih _ _).cons_cons s

/-- Nothing is handed over on a channel that is lost. -/
theorem filter_handed_of_mem {lost : List Channel} {c : Channel} (hc : c ∈ lost) (k : Nat)
    (slots : List Slot) : (fb.handed lost k slots).filter (·.channel = c) = [] := by
  induction slots generalizing lost k with
  | nil => rfl
  | cons s slots ih =>
    have hmore : c ∈ s.channel :: lost := List.mem_cons_of_mem _ hc
    rw [handed]
    split
    · exact ih hc k
    · next hs =>
      have hne : s.channel ≠ c := fun he => hs (he ▸ hc)
      split
      · exact ih hmore k
      · rw [List.filter_cons_of_neg (by simpa using hne)]
        split
        · exact ih hc _
        · exact ih hmore _

/-- On one channel the walk hands over what comes first, up to where the channel is lost. -/
theorem prefix_filter_handed (lost : List Channel) (k : Nat) (slots : List Slot) (c : Channel) :
    (fb.handed lost k slots).filter (·.channel = c) <+: slots.filter (·.channel = c) := by
  induction slots generalizing lost k with
  | nil => exact List.prefix_rfl
  | cons s slots ih =>
    by_cases hc : s.channel = c
    · rw [handed]
      split
      · next hs =>
        rw [fb.filter_handed_of_mem (hc ▸ hs)]
        exact List.nil_prefix
      · split
        · rw [fb.filter_handed_of_mem (by rw [hc]; exact List.mem_cons_self)]
          exact List.nil_prefix
        · rw [List.filter_cons_of_pos (by simpa using hc),
            List.filter_cons_of_pos (by simpa using hc), List.prefix_cons_inj]
          exact ih _ _
    · rw [handed, List.filter_cons_of_neg (l := slots) (by simpa using hc)]
      split
      · exact ih _ _
      · split
        · exact ih _ _
        · rw [List.filter_cons_of_neg (by simpa using hc)]
          exact ih _ _

end Feedback

namespace Feedback

variable {fb : Feedback} {k : Nat} {s : Slot} {slots : List Slot}

theorem handed_cons (h : s.place = 0 → fb.live s.channel s.gop = true) :
    fb.handed [] k (s :: slots) = s :: fb.handed [] (k + 1)
      (if fb.answer k = .accepted then slots else slots.filter (·.channel ≠ s.channel)) := by
  have hl : ¬(s.place = 0 ∧ fb.live s.channel s.gop = false) := by
    rintro ⟨hp, hl⟩
    rw [h hp] at hl
    cases hl
  rw [handed, if_neg List.not_mem_nil, if_neg hl]
  by_cases ha : fb.answer k = .accepted
  · rw [if_pos ha, if_pos ha]
  · rw [if_neg ha, if_neg ha, fb.handed_singleton]

theorem handed_cons_lost (hp : s.place = 0) (hl : fb.live s.channel s.gop = false) :
    fb.handed [] k (s :: slots) = fb.handed [] k (slots.filter (·.channel ≠ s.channel)) := by
  rw [handed, if_neg List.not_mem_nil, if_pos ⟨hp, hl⟩, fb.handed_singleton]

end Feedback

/-- The turn for which a pass needs the fanout, by the channel and the number of the group. -/
def Pass.turn? : Pass → Option (Channel × Nat)
  | .looking _ _ lane _ _ round => some (lane.channel, lane.block.start + round)
  | _ => none

/-- What a pass over `channels` has before it: the slots still to be pushed, from the present one
or the present group on, and then the channels whose end of stream is still to be sent. A group
under way is one whose channel was found live. -/
def Pass.Ahead (fb : Feedback) (bound : Nat) (channels : List Channel) :
    Pass → List Slot → List Channel → Prop
  | .looking _ served lane gop upcoming round, slots, ends =>
    (served ++ lane :: upcoming).map Lane.channel = channels ∧
      (∀ l ∈ served ++ lane :: upcoming, l.Fits bound) ∧ ends = channels ∧
      slots = Slot.consecutive lane.channel (lane.block.start + round) 0 gop.units ++
        Lane.agenda bound (served ++ [lane]) upcoming
  | .pushing _ served lane unit rest upcoming _, slots, ends =>
    (served ++ lane :: upcoming).map Lane.channel = channels ∧
      (∀ l ∈ served ++ lane :: upcoming, l.Fits bound) ∧ ends = channels ∧
      ∃ gop place, (place = 0 → fb.live lane.channel gop = true) ∧
        slots = Slot.consecutive lane.channel gop place (unit :: rest) ++
          Lane.agenda bound (served ++ [lane]) upcoming
  | .ending _ lanes c rest, slots, ends =>
    lanes.map Lane.channel = channels ∧ slots = [] ∧ ends = c :: rest
  | .booking _ lanes, slots, ends => lanes.map Lane.channel = channels ∧ slots = [] ∧ ends = []
  | .discarding _, slots, ends => slots = [] ∧ ends = []

def Progress.Ahead (fb : Feedback) (bound : Nat) (channels : List Channel) :
    Progress → List Slot → List Channel → Prop
  | .waiting p, slots, ends => p.Ahead fb bound channels slots ends
  | .finished _ _, slots, ends => slots = [] ∧ ends = []
  | .discarded _, slots, ends => slots = [] ∧ ends = []

namespace Lane

variable {bound : Nat} {served upcoming : List Lane} {lane : Lane}

theorem channels_ne (h : ((served ++ lane :: upcoming).map channel).Nodup) :
    (∀ l ∈ served, l.channel ≠ lane.channel) ∧ ∀ l ∈ upcoming, l.channel ≠ lane.channel := by
  rw [List.map_append, List.map_cons, List.nodup_append] at h
  obtain ⟨-, hu, hs⟩ := h
  refine ⟨fun l hl => hs _ (List.mem_map_of_mem hl) _ List.mem_cons_self, fun l hl heq => ?_⟩
  exact (List.nodup_cons.mp hu).1 (heq ▸ List.mem_map_of_mem hl)

theorem forall_mem_replace {P : Lane → Prop} {l : Lane}
    (h : ∀ m ∈ served ++ lane :: upcoming, P m) (hl : P l) :
    ∀ m ∈ served ++ l :: upcoming, P m := by
  intro m hm
  rcases List.mem_append.mp hm with hm | hm
  · exact h m (List.mem_append_left _ hm)
  · rcases List.mem_cons.mp hm with rfl | hm
    · exact hl
    · exact h m (List.mem_append_right _ (List.mem_cons_of_mem _ hm))

theorem forall_mem_others {P : Lane → Prop} :
    (∀ l ∈ served ++ lane :: upcoming, P l) ↔ (∀ l ∈ served ++ upcoming, P l) ∧ P lane := by
  simp only [List.forall_mem_append, List.forall_mem_cons]
  tauto

/-- The group at the front of a lane in step is the one that the round tells. -/
theorem InStep.nextGop_eq {round : Nat} {g : Gop} {queue : List Gop} (h : lane.InStep round)
    (hq : lane.queue = g :: queue) : lane.nextGop = lane.block.start + round := by
  have hlength := h (by simp [hq])
  unfold nextGop
  omega

theorem agenda_skip_all {passed : List Lane} (h : Drained passed) :
    agenda bound served (passed ++ upcoming) = agenda bound (served ++ passed) upcoming := by
  induction passed generalizing served with
  | nil => rw [List.nil_append, List.append_nil]
  | cons l passed ih =>
    obtain ⟨hl, hrest⟩ := List.forall_mem_cons.mp h
    rw [List.cons_append, agenda_skip hl, ih hrest, List.append_assoc]
    rfl

/-- At the turn of a group the agenda begins with its units. -/
theorem agenda_turn {round : Nat} {g : Gop} {queue : List Gop} {passed : List Lane}
    (hf : lane.Fits bound) (hs : lane.InStep round) (hq : lane.queue = g :: queue)
    (hp : Drained passed) : agenda bound served (passed ++ lane :: upcoming) =
      Slot.consecutive lane.channel (lane.block.start + round) 0 g.units ++
        agenda bound (served ++ passed ++ [{ lane with queue }]) upcoming := by
  rw [agenda_skip_all hp, agenda_pop hf hq, hs.nextGop_eq hq]

end Lane

namespace Pass

variable {fb : Feedback} {bound : Nat} {channels : List Channel}

theorem conclude_ahead {plan : Partition} {lanes : List Lane}
    (hc : lanes.map Lane.channel = channels) :
    (conclude plan lanes).Ahead fb bound channels [] channels := by
  unfold conclude
  split
  · next h => exact ⟨hc, rfl, by rw [← hc, h]⟩
  · next h => exact ⟨hc, rfl, by rw [← hc, h]⟩

/-- A pass goes on with the first group of its agenda, and without any with the ends of stream. -/
theorem advance_ahead {plan : Partition} {left round : Nat} {served upcoming : List Lane}
    (hc : (served ++ upcoming).map Lane.channel = channels)
    (hf : ∀ l ∈ served ++ upcoming, l.Fits bound)
    (hs : ∀ l ∈ served, l.InStep (round + 1)) (hu : ∀ l ∈ upcoming, l.InStep round)
    (hb : ∀ l ∈ served ++ upcoming, l.block ∈ plan.blocks) (hl : plan.rounds ≤ round + 1 + left) :
    (advance plan left round served upcoming).Ahead fb bound channels
      (Lane.agenda bound served upcoming) channels := by
  have ha := advances_advance plan left round served upcoming
  generalize advance plan left round served upcoming = p at ha
  cases ha with
  | turn hup hq hp =>
    subst hup
    rw [← List.append_assoc] at hc hf
    rw [List.forall_mem_append, List.forall_mem_cons] at hu
    have hlane := (List.forall_mem_cons.mp (List.forall_mem_append.mp hf).2).1
    exact ⟨by simpa using hc, Lane.forall_mem_replace hf (hlane.pop hq), rfl,
      Lane.agenda_turn hlane hu.2.1 hq hp⟩
  | round _ hd heq hq hp =>
    have hall : ∀ l ∈ served ++ upcoming, l.InStep (round + 1) :=
      List.forall_mem_append.mpr ⟨hs, fun l hl => Lane.inStep_of_queue (hd l hl)⟩
    -- No upcoming lane has a group, so the agenda of this round is that of the next.
    have hskip : Lane.agenda bound served upcoming = Lane.agenda bound [] (served ++ upcoming) := by
      have h : Lane.agenda bound served (upcoming ++ []) =
          Lane.agenda bound (served ++ upcoming) [] := Lane.agenda_skip_all hd
      rw [List.append_nil] at h
      rw [h, Lane.agenda_round hf]
    rw [hskip]
    rw [heq] at hc hf hall ⊢
    have hlane := (List.forall_mem_cons.mp (List.forall_mem_append.mp hf).2).1
    have hstep := (List.forall_mem_cons.mp (List.forall_mem_append.mp hall).2).1
    exact ⟨by simpa using hc, Lane.forall_mem_replace hf (hlane.pop hq), rfl,
      Lane.agenda_turn hlane hstep hq hp⟩
  | ends hd hover =>
    have hdrained : Lane.Drained served := by
      rcases hover with rfl | hdrained
      · exact Lane.drained_of_rounds (fun l hm => hb l (List.mem_append_left _ hm)) hs hl
      · exact hdrained
    rw [Lane.agenda_eq_nil hdrained hd]
    exact conclude_ahead hc

/-- At its start a pass has the whole agenda of its lanes before it. -/
theorem start_ahead {plan : Partition} {lanes : List Lane}
    (hc : lanes.map Lane.channel = channels) (hf : ∀ l ∈ lanes, l.Fits bound)
    (hs : ∀ l ∈ lanes, l.InStep 0) (hb : ∀ l ∈ lanes, l.block ∈ plan.blocks) :
    (start plan lanes).Ahead fb bound channels (Lane.agenda bound [] lanes) channels := by
  unfold start
  split
  · next hr =>
    have hnone : Lane.agenda bound [] lanes = [] :=
      Lane.agenda_eq_nil nofun (Lane.drained_of_rounds hb hs (Nat.le_of_eq hr))
    rw [hnone]
    exact conclude_ahead hc
  · next left hr =>
    refine advance_ahead hc hf nofun hs hb ?_
    rw [hr]
    omega

section

variable {plan : Partition} {served upcoming : List Lane} {lane l : Lane} {round : Nat}

/-- Behind a turn a pass goes on with what the other lanes and the rest of this one have left. -/
theorem next_ahead (fb : Feedback) (lane : Lane) (hblock : l.block = lane.block)
    (hfit : l.Fits bound) (hl : l.InStep (round + 1))
    (hc : (served ++ lane :: upcoming).map Lane.channel = channels)
    (hf : ∀ l ∈ served ++ lane :: upcoming, l.Fits bound)
    (hb : (served ++ lane :: upcoming).map Lane.block = plan.blocks)
    (hs : ∀ l ∈ served ++ [lane], l.InStep (round + 1)) (hu : ∀ l ∈ upcoming, l.InStep round) :
    (next plan round (served ++ [l]) upcoming).Ahead fb bound channels
      (Lane.agenda bound (served ++ [l]) upcoming) channels := by
  have happ : served ++ [l] ++ upcoming = served ++ l :: upcoming := by simp
  refine advance_ahead ?_ ?_ ?_ hu ?_ (by omega)
  · have hch : l.channel = lane.channel := congrArg Block.channel hblock
    rw [happ, ← hc]
    simp [hch]
  · rw [happ]
    exact Lane.forall_mem_replace hf hfit
  · rw [List.forall_mem_append, List.forall_mem_singleton] at hs ⊢
    exact ⟨hs.1, hl⟩
  · rw [happ]
    refine Lane.forall_mem_replace (fun m (hm : m ∈ served ++ lane :: upcoming) => ?_) ?_
    · rw [← hb]
      exact List.mem_map_of_mem hm
    · rw [hblock, ← hb]
      exact List.mem_map_of_mem (List.mem_append_right _ List.mem_cons_self)

/-- A lane that is given up takes the units of its channel out of the agenda, those under way
included. -/
theorem agenda_lost (hd : ((served ++ lane :: upcoming).map Lane.channel).Nodup) (lost gop : Nat)
    (place : Nat) (us : List AccessUnit) :
    Lane.agenda bound (served ++ [lane.abandon lost]) upcoming =
      (Slot.consecutive lane.channel gop place us ++
        Lane.agenda bound (served ++ [lane]) upcoming).filter (·.channel ≠ lane.channel) := by
  obtain ⟨hs, hu⟩ := Lane.channels_ne hd
  have hrest : (Slot.consecutive lane.channel gop place us).filter
      (·.channel ≠ lane.channel) = [] := by
    apply List.filter_eq_nil_iff.mpr
    intro s hm
    simp [Slot.channel_of_mem_consecutive hm]
  rw [List.filter_append, hrest, List.nil_append, Lane.agenda_abandon lost hs hu]

end

variable (live : Channel → Bool) (silent : Bool)

/-- At the turn of a group the first slot begins the group. Where the channel is live the group
stays before the pass, and otherwise the units of the channel are taken out of the agenda. -/
theorem resume_looking_ahead (hd : channels.Nodup) {p : Pass} {slots : List Slot}
    {ends : List Channel} (h : p.Ahead fb bound channels slots ends) (hp : p.InStep)
    {c : Channel} {g : Nat} (ht : p.turn? = some (c, g)) (hl : fb.live c g = live c)
    (answer : Answer) :
    p.call? = none ∧ ∃ s more, slots = s :: more ∧ s.channel = c ∧ s.gop = g ∧ s.place = 0 ∧
      (resume live silent answer p).value.Ahead fb bound channels
        (if live c then slots else more.filter (·.channel ≠ c)) ends := by
  cases p with
  | looking plan served lane gop upcoming round =>
    obtain ⟨rfl, rfl⟩ := Prod.mk.inj (Option.some.inj ht)
    obtain ⟨hc, hf, he, hs⟩ := h
    obtain ⟨hb, hstep, hu⟩ := hp
    have hs' := hs
    rw [Gop.units, Slot.consecutive_cons, List.cons_append] at hs'
    refine ⟨rfl, _, _, hs', rfl, rfl, rfl, ?_⟩
    rw [resume]
    split
    · next hlive => exact ⟨hc, hf, he, lane.block.start + round, 0, fun _ => hl.trans hlive, hs⟩
    · have hlane : lane.Fits bound := hf lane (by simp)
      have hnext := next_ahead fb lane (l := lane.abandon gop.length) rfl
        (hlane.abandon _) (Lane.inStep_of_queue rfl) hc hf hb hstep hu
      rw [agenda_lost (hc ▸ hd) gop.length (lane.block.start + round) (0 + 1)
        gop.rest.toList] at hnext
      rw [he]
      exact hnext
  | _ => cases ht

/-- An accepted unit leaves the rest of the agenda, and a refused one takes the other units of its
channel out of it. -/
theorem resume_pushing_ahead (hd : channels.Nodup) {p : Pass} {s : Slot} {slots : List Slot}
    {ends : List Channel} (h : p.Ahead fb bound channels (s :: slots) ends) (hp : p.InStep)
    (ht : p.turn? = none) (answer : Answer) :
    p.call? = some s.call ∧ (s.place = 0 → fb.live s.channel s.gop = true) ∧
      (resume live silent answer p).value.Ahead fb bound channels
        (if answer = .accepted then slots else slots.filter (·.channel ≠ s.channel)) ends := by
  cases p with
  | looking => cases ht
  | pushing plan served lane unit rest upcoming round =>
    obtain ⟨hc, hf, he, gop, place, hl, hs⟩ := h
    obtain ⟨hb, hstep, hu⟩ := hp
    rw [Slot.consecutive_cons, List.cons_append] at hs
    obtain ⟨rfl, rfl⟩ := List.cons.inj hs
    refine ⟨rfl, hl, ?_⟩
    have hlane : lane.Fits bound := hf lane (by simp)
    cases answer with
    | accepted =>
      rw [if_pos rfl]
      have hg : Lane.agenda bound (served ++ [lane]) upcoming =
          Lane.agenda bound (served ++ [lane.accept]) upcoming :=
        Lane.agenda_congr fun r => (Lane.turn_accept r).symm
      cases rest with
      | nil =>
        rw [Slot.consecutive_nil, List.nil_append, hg, he]
        exact next_ahead fb lane (l := lane.accept) rfl hlane.accept
          (hstep lane (by simp)) hc hf hb hstep hu
      | cons unit rest =>
        refine ⟨by simpa [Lane.accept] using hc, Lane.forall_mem_replace hf hlane.accept, he, gop,
          place + 1, fun hz => absurd hz (Nat.succ_ne_zero place), ?_⟩
        rw [hg]
        rfl
    | refused reason =>
      have hne : Answer.refused reason ≠ .accepted := fun he => by cases he
      rw [if_neg hne, ← agenda_lost (hc ▸ hd) (1 + rest.length), he]
      exact next_ahead fb lane (l := lane.abandon _) rfl (hlane.abandon _)
        (Lane.inStep_of_queue rfl) hc hf hb hstep hu
  | ending plan lanes c rest => cases h.2.1
  | booking plan lanes => cases h.2.1
  | discarding gops => cases h.1

/-- With nothing to push a pass sends an end of stream, or it makes no call any more. -/
theorem resume_ending_ahead {p : Pass} {ends : List Channel}
    (h : p.Ahead fb bound channels [] ends) (answer : Answer) :
    p.turn? = none ∧ p.call? = ends.head?.map .endOfStream ∧
      (resume live silent answer p).value.Ahead fb bound channels [] ends.tail := by
  cases p with
  | looking plan served lane gop upcoming round =>
    obtain ⟨-, -, -, hs⟩ := h
    rw [Gop.units, Slot.consecutive_cons] at hs
    cases hs
  | pushing plan served lane unit rest upcoming round =>
    obtain ⟨-, -, -, gop, place, -, hs⟩ := h
    rw [Slot.consecutive_cons] at hs
    cases hs
  | ending plan lanes c rest =>
    obtain ⟨hc, -, rfl⟩ := h
    refine ⟨rfl, rfl, ?_⟩
    cases rest with
    | nil => exact ⟨hc, rfl, rfl⟩
    | cons c rest => exact ⟨hc, rfl, rfl⟩
  | booking plan lanes =>
    obtain ⟨-, -, rfl⟩ := h
    exact ⟨rfl, rfl, rfl, rfl⟩
  | discarding gops =>
    obtain ⟨-, rfl⟩ := h
    exact ⟨rfl, rfl, rfl, rfl⟩

/-- The calls that are made in all when nothing stops the pass. -/
def calls (fb : Feedback) (k : Nat) (slots : List Slot) (ends : List Channel) : List SinkCall :=
  (fb.handed [] k slots).map Slot.call ++ ends.map .endOfStream

end Pass

namespace Progress

def pass? : Progress → Option Pass
  | waiting p => some p
  | finished .. | discarded _ => none

def next? (r : Progress) : Option SinkCall :=
  r.pass?.bind Pass.call?

end Progress

/-- What a pass meets when it leaves a stop: the registry of that time, and the answer to its call
if it has made one. -/
structure Reply where
  roster : Roster
  answer : Answer

/-- A stop that a pass has left, with what it has met there. -/
structure Stop where
  pass : Pass
  reply : Reply

namespace Stop

def next (silent : Bool) (s : Stop) : Progress :=
  (s.pass.resume s.reply.roster.contains silent s.reply.answer).value

/-- The turn at which the pass has looked for a channel, and whether it was there. -/
def found? (s : Stop) : Option ((Channel × Nat) × Bool) :=
  s.pass.turn?.map fun turn => (turn, s.reply.roster.contains turn.1)

def call? (s : Stop) : Option SinkCall :=
  s.pass.call?

def answer? (s : Stop) : Option Answer :=
  s.call?.map fun _ => s.reply.answer

end Stop

/-- The feedback that a pass gets at some stops. What is asked about turns and answers that have not
come is never looked at. -/
def Feedback.of (stops : List Stop) : Feedback where
  live c g := ((stops.filterMap Stop.found?).lookup (c, g)).getD true
  answer k := ((stops.filterMap Stop.answer?)[k]?).getD .accepted

/-- From `r` a pass goes on from stop to stop, and comes to `r'`. -/
inductive Goes (silent : Bool) : Progress → List Stop → Progress → Prop
  | here (r : Progress) : Goes silent r [] r
  | leave {s : Stop} {stops : List Stop} {r : Progress} (h : Goes silent (s.next silent) stops r) :
    Goes silent (.waiting s.pass) (s :: stops) r

theorem filterMap_cons_eq {α β : Type} (f : α → Option β) (x : α) (xs : List α) :
    (x :: xs).filterMap f = (f x).toList ++ xs.filterMap f := by
  cases h : f x with
  | none => exact List.filterMap_cons_none h
  | some y => exact List.filterMap_cons_some h

theorem Goes.of_resume {silent : Bool} {p : Pass} {reply : Reply} {stops : List Stop}
    {r r' : Progress} (hr : (p.resume reply.roster.contains silent reply.answer).value = r)
    (h : Goes silent r stops r') : Goes silent (.waiting p) (⟨p, reply⟩ :: stops) r' := by
  subst hr
  exact .leave (s := ⟨p, reply⟩) h

theorem Goes.trans {silent : Bool} {xs ys : List Stop} {r r' r'' : Progress}
    (h : Goes silent r xs r') (h' : Goes silent r' ys r'') : Goes silent r (xs ++ ys) r'' := by
  induction h with
  | here => exact h'
  | leave _ ih => exact .leave (ih h')

/-- The call that a pass has come to is the first of those that it has before it, and a pass that is
over has none before it. -/
theorem Progress.Ahead.calls_eq {fb : Feedback} {bound : Nat} {channels : List Channel}
    (hd : channels.Nodup) {r : Progress} {slots : List Slot} {ends : List Channel}
    (h : r.Ahead fb bound channels slots ends) (hs : r.InStep) (k : Nat) :
    (r.next?.toList <+: Pass.calls fb k slots ends) ∧
      (r.pass? = none → Pass.calls fb k slots ends = []) := by
  cases r with
  | finished plan lanes =>
    obtain ⟨rfl, rfl⟩ := h
    exact ⟨List.nil_prefix, fun _ => rfl⟩
  | discarded gops =>
    obtain ⟨rfl, rfl⟩ := h
    exact ⟨List.nil_prefix, fun _ => rfl⟩
  | waiting p =>
    refine ⟨?_, nofun⟩
    show p.call?.toList <+: _
    cases ht : p.turn? with
    | some turn =>
      have hcall : p.call? = none := by
        cases p with
        | looking => rfl
        | _ => cases ht
      rw [hcall]
      exact List.nil_prefix
    | none =>
      cases slots with
      | cons t more =>
        obtain ⟨hcall, hlive, -⟩ :=
          Pass.resume_pushing_ahead (fun _ => true) true hd h hs ht .accepted
        rw [hcall, Pass.calls, Feedback.handed_cons hlive]
        exact List.prefix_append [_] _
      | nil =>
        obtain ⟨-, hcall, -⟩ := Pass.resume_ending_ahead (fun _ => true) true h .accepted
        rw [hcall]
        cases ends with
        | nil => exact List.nil_prefix
        | cons c rest => exact List.prefix_append [_] _

/-- At a stop a pass makes the first of the calls that it has before it, or none, and goes on to
those behind it. A turn whose channel is not found takes calls out of them. -/
theorem Stop.calls_eq {silent : Bool} {fb : Feedback} {bound : Nat} {channels : List Channel}
    (hd : channels.Nodup) (s : Stop) {k : Nat} {slots : List Slot} {ends : List Channel}
    (hf : ∀ t b, s.found? = some (t, b) → fb.live t.1 t.2 = b)
    (ha : ∀ a, s.answer? = some a → fb.answer k = a)
    (h : s.pass.Ahead fb bound channels slots ends) (hs : s.pass.InStep) :
    ∃ slots' ends', (s.next silent).Ahead fb bound channels slots' ends' ∧
      Pass.calls fb k slots ends =
        s.call?.toList ++ Pass.calls fb (k + s.answer?.toList.length) slots' ends' := by
  cases ht : s.pass.turn? with
  | some turn =>
    obtain ⟨c, g⟩ := turn
    have hl : fb.live c g = s.reply.roster.contains c := hf (c, g) _ (by rw [found?, ht]; rfl)
    obtain ⟨hcall, t, more, hslots, rfl, rfl, hplace, hnext⟩ :=
      Pass.resume_looking_ahead s.reply.roster.contains silent hd h hs ht hl s.reply.answer
    refine ⟨_, _, hnext, ?_⟩
    rw [answer?, show s.call? = none from hcall]
    split
    · rfl
    · next hlost =>
      rw [hslots, Pass.calls, Feedback.handed_cons_lost hplace
        (hl.trans (Bool.eq_false_iff.mpr hlost))]
      rfl
  | none =>
    cases slots with
    | cons t more =>
      obtain ⟨hcall, hlive, hnext⟩ :=
        Pass.resume_pushing_ahead s.reply.roster.contains silent hd h hs ht s.reply.answer
      have hcall : s.call? = some t.call := hcall
      have hnow : fb.answer k = s.reply.answer := ha _ (by rw [answer?, hcall]; rfl)
      refine ⟨_, _, hnext, ?_⟩
      rw [answer?, hcall, Pass.calls, Feedback.handed_cons hlive, hnow]
      rfl
    | nil =>
      obtain ⟨-, hcall, hnext⟩ :=
        Pass.resume_ending_ahead s.reply.roster.contains silent h s.reply.answer
      refine ⟨_, _, hnext, ?_⟩
      rw [answer?, show s.call? = _ from hcall]
      cases ends <;> rfl

namespace Goes

variable {silent : Bool} {r r' : Progress} {stops : List Stop}

theorem inStep (h : Goes silent r stops r') (hr : r.InStep) : r'.InStep := by
  induction h with
  | here => exact hr
  | leave _ ih => exact ih (Pass.inStep_resume _ silent hr _)

/-- The calls that a pass has made and those that it has still to make are all that it makes. -/
theorem calls_eq {fb : Feedback} {bound : Nat} {channels : List Channel} (hd : channels.Nodup)
    (h : Goes silent r stops r') {k : Nat} {slots : List Slot} {ends : List Channel}
    (hf : ∀ t b, (t, b) ∈ stops.filterMap Stop.found? → fb.live t.1 t.2 = b)
    (ha : ∀ j a, (stops.filterMap Stop.answer?)[j]? = some a → fb.answer (k + j) = a)
    (hr : r.Ahead fb bound channels slots ends) (hs : r.InStep) :
    ∃ slots' ends', r'.Ahead fb bound channels slots' ends' ∧ Pass.calls fb k slots ends =
      stops.filterMap Stop.call? ++
        Pass.calls fb (k + (stops.filterMap Stop.answer?).length) slots' ends' := by
  induction h generalizing k slots ends with
  | here => exact ⟨slots, ends, hr, rfl⟩
  | @leave s stops r' h ih =>
    rw [filterMap_cons_eq] at hf ha
    obtain ⟨slots', ends', hnext, hcalls⟩ := s.calls_eq hd (k := k)
      (fun t b hm => hf t b (List.mem_append_left _ (Option.mem_toList.mpr hm)))
      (fun a hm => ha 0 a (by rw [Option.mem_def.mp hm]; rfl)) hr hs
    have hlater (j : Nat) (a : Answer) (hj : (stops.filterMap Stop.answer?)[j]? = some a) :
        fb.answer (k + s.answer?.toList.length + j) = a := by
      rw [Nat.add_assoc]
      refine ha _ a ?_
      rw [List.getElem?_append_right (Nat.le_add_right _ _), Nat.add_sub_cancel_left]
      exact hj
    obtain ⟨slots'', ends'', hahead, hrest⟩ := ih
      (fun t b hm => hf t b (List.mem_append_right _ hm)) hlater hnext
      (Pass.inStep_resume _ silent hs _)
    refine ⟨slots'', ends'', hahead, ?_⟩
    rw [hcalls, hrest, filterMap_cons_eq, filterMap_cons_eq, List.length_append, Nat.add_assoc,
      List.append_assoc]

end Goes

/-- The turns of the groups that begin among some slots. -/
def Slot.turns (slots : List Slot) : List (Channel × Nat) :=
  (slots.filter (·.place = 0)).map fun s => (s.channel, s.gop)

theorem Slot.turns_sublist {xs ys : List Slot} (h : xs.Sublist ys) :
    (turns xs).Sublist (turns ys) :=
  (h.filter _).map _

theorem Slot.turns_flatMap {α : Type} (f : α → List Slot) (xs : List α) :
    turns (xs.flatMap f) = xs.flatMap fun x => turns (f x) := by
  simp only [turns, List.filter_flatMap, List.map_flatMap]

/-- The slots of a turn begin one group. -/
theorem Block.turns_turn (gops : List Gop) (r : Nat) (b : Block) :
    Slot.turns (b.turn gops r) = [] ∨ Slot.turns (b.turn gops r) = [(b.channel, b.start + r)] := by
  have hlater (c : Channel) (g place : Nat) (us : List AccessUnit) :
      (Slot.consecutive c g (place + 1) us).filter (·.place = 0) = [] := by
    induction us generalizing place with
    | nil => rfl
    | cons u us ih => rw [Slot.consecutive_cons, List.filter_cons_of_neg (by simp), ih]
  unfold turn
  split
  · cases gops[b.start + r]? with
    | none => exact .inl rfl
    | some g =>
      refine .inr ?_
      rw [Option.toList_some, List.flatMap_singleton, Gop.units, Slot.consecutive_cons, Slot.turns,
        List.filter_cons_of_pos (by simp), hlater]
      rfl
  · exact .inl rfl

/-- In a schedule over different channels no group has two turns. -/
theorem nodup_turns_schedule {blocks : List Block} (hd : (blocks.map Block.channel).Nodup)
    (gops : List Gop) : (Slot.turns (schedule blocks gops)).Nodup := by
  have hmem {r : Nat} {b : Block} {t : Channel × Nat} (ht : t ∈ Slot.turns (b.turn gops r)) :
      t = (b.channel, b.start + r) := by
    rcases b.turns_turn gops r with h | h
    · rw [h] at ht
      cases ht
    · exact List.mem_singleton.mp (h ▸ ht)
  rw [schedule, Slot.turns_flatMap, List.nodup_flatMap]
  refine ⟨fun r _ => ?_, List.nodup_range.imp fun {r r'} hr => ?_⟩
  · rw [Slot.turns_flatMap, List.nodup_flatMap]
    refine ⟨fun b _ => ?_, (List.pairwise_map.mp hd).imp fun {b b'} hb => ?_⟩
    · rcases b.turns_turn gops r with h | h
      · rw [h]
        exact List.nodup_nil
      · rw [h]
        exact List.nodup_singleton _
    · intro t ht ht'
      exact hb (congrArg Prod.fst ((hmem ht).symm.trans (hmem ht')))
  · intro t ht ht'
    simp only [Slot.turns_flatMap] at ht ht'
    obtain ⟨b, hb, ht⟩ := List.mem_flatMap.mp ht
    obtain ⟨b', hb', ht'⟩ := List.mem_flatMap.mp ht'
    have heq := (hmem ht).symm.trans (hmem ht')
    obtain rfl := List.inj_on_of_nodup_map hd hb hb' (congrArg Prod.fst heq)
    exact hr (Nat.add_left_cancel (congrArg Prod.snd heq))

/-- The slots among which the turns are that are still to come. -/
def Progress.coming (slots : List Slot) : Progress → List Slot
  | waiting p => if p.turn?.isSome then slots else slots.tail
  | finished .. | discarded _ => []

theorem Progress.coming_sublist (slots : List Slot) (r : Progress) :
    (r.coming slots).Sublist slots := by
  cases r with
  | waiting p =>
    rw [coming]
    split
    · exact List.Sublist.refl _
    · exact List.tail_sublist _
  | _ => exact List.nil_sublist _

theorem Pass.turn?_of_live {p : Pass} {c : Channel} {g : Nat} (ht : p.turn? = some (c, g))
    {live : Channel → Bool} (hl : live c = true) (silent : Bool) (answer : Answer) :
    ∃ q, (p.resume live silent answer).value = .waiting q ∧ q.turn? = none := by
  cases p with
  | looking plan served lane gop upcoming round =>
    obtain ⟨rfl, rfl⟩ := Prod.mk.inj (Option.some.inj ht)
    rw [resume, if_pos hl]
    exact ⟨_, rfl, rfl⟩
  | _ => cases ht

/-- At a turn nothing is under way, so what is ahead does not depend on what was found before. -/
theorem Pass.Ahead.at_turn {p : Pass} (ht : p.turn?.isSome = true) {fb : Feedback} (fb' : Feedback)
    {bound : Nat} {channels : List Channel} {slots : List Slot} {ends : List Channel}
    (h : p.Ahead fb bound channels slots ends) : p.Ahead fb' bound channels slots ends := by
  cases p with
  | looking => exact h
  | _ => cases ht

/-- At a turn a pass looks for the channel whose group comes first, and then the other turns are
still to come, or fewer. -/
theorem Stop.found_sublist {silent : Bool} {bound : Nat} {channels : List Channel}
    (hd : channels.Nodup) (s : Stop) {fb : Feedback} {slots : List Slot} {ends : List Channel}
    (h : s.pass.Ahead fb bound channels slots ends) (hs : s.pass.InStep) :
    ∃ fb' slots' ends', (s.next silent).Ahead fb' bound channels slots' ends' ∧
      (s.found?.toList.map Prod.fst ++ Slot.turns ((s.next silent).coming slots')).Sublist
        (Slot.turns ((Progress.waiting s.pass).coming slots)) := by
  rw [Progress.coming]
  cases ht : s.pass.turn? with
  | some turn =>
    obtain ⟨c, g⟩ := turn
    -- Any feedback will do at a turn, in particular the one that agrees with what is found here.
    let fb' : Feedback := ⟨fun c _ => s.reply.roster.contains c, fb.answer⟩
    have h' := Pass.Ahead.at_turn (by rw [ht]; rfl) fb' h
    obtain ⟨-, t, more, rfl, rfl, rfl, hplace, hnext⟩ :=
      Pass.resume_looking_ahead s.reply.roster.contains silent hd h' hs ht rfl s.reply.answer
    have hturns : Slot.turns (t :: more) = (t.channel, t.gop) :: Slot.turns more := by
      rw [Slot.turns, List.filter_cons_of_pos (by simpa using hplace)]
      rfl
    refine ⟨fb', _, _, hnext, ?_⟩
    rw [found?, ht, Option.isSome_some, if_pos rfl, hturns]
    refine List.Sublist.cons_cons _ (Slot.turns_sublist ?_)
    by_cases hlive : s.reply.roster.contains t.channel = true
    · obtain ⟨q, hq, hnone⟩ := Pass.turn?_of_live ht hlive silent s.reply.answer
      rw [next, hq, if_pos hlive, Progress.coming, hnone]
      exact List.Sublist.refl _
    · rw [if_neg hlive]
      exact (Progress.coming_sublist _ _).trans List.filter_sublist
  | none =>
    rw [found?, ht]
    cases slots with
    | cons t more =>
      obtain ⟨-, -, hnext⟩ :=
        Pass.resume_pushing_ahead s.reply.roster.contains silent hd h hs ht s.reply.answer
      refine ⟨fb, _, _, hnext, Slot.turns_sublist ((Progress.coming_sublist _ _).trans ?_)⟩
      split
      · exact List.Sublist.refl _
      · exact List.filter_sublist
    | nil =>
      obtain ⟨-, -, hnext⟩ :=
        Pass.resume_ending_ahead s.reply.roster.contains silent h s.reply.answer
      exact ⟨fb, _, _, hnext, Slot.turns_sublist (Progress.coming_sublist _ _)⟩

theorem lookup_of_mem {α β : Type} [BEq α] [LawfulBEq α] {xs : List (α × β)} {a : α} {b : β}
    (hd : (xs.map Prod.fst).Nodup) (h : (a, b) ∈ xs) : xs.lookup a = some b := by
  induction xs with
  | nil => cases h
  | cons x xs ih =>
    rw [List.map_cons, List.nodup_cons] at hd
    rw [List.lookup_cons]
    rcases List.mem_cons.mp h with rfl | h
    · rw [beq_self_eq_true]
    · have hne : a ≠ x.1 := fun he => hd.1 (List.mem_map.mpr ⟨(a, b), h, he⟩)
      have hb : (a == x.1) = false := by simpa using hne
      rw [hb]
      exact ih hd.2 h

namespace Goes

variable {silent : Bool} {r r' : Progress} {stops : List Stop}

/-- A pass looks for channels at the turns of groups that it has before it, at each once. -/
theorem found_sublist {bound : Nat} {channels : List Channel} (hd : channels.Nodup)
    (h : Goes silent r stops r') {fb : Feedback} {slots : List Slot} {ends : List Channel}
    (hr : r.Ahead fb bound channels slots ends) (hs : r.InStep) :
    ((stops.filterMap Stop.found?).map Prod.fst).Sublist (Slot.turns (r.coming slots)) := by
  induction h generalizing fb slots ends with
  | here => exact List.nil_sublist _
  | @leave s stops r' h ih =>
    obtain ⟨fb', slots', ends', hnext, hfound⟩ := s.found_sublist hd hr hs
    rw [filterMap_cons_eq, List.map_append]
    exact ((ih hnext (Pass.inStep_resume _ silent hs _)).append_left _).trans hfound

/-- The feedback of a pass tells what was found at each of its turns. -/
theorem live_of_found {bound : Nat} {channels : List Channel} (hd : channels.Nodup)
    (h : Goes silent r stops r') {fb : Feedback} {slots : List Slot} {ends : List Channel}
    (hr : r.Ahead fb bound channels slots ends) (hs : r.InStep)
    (hn : (Slot.turns slots).Nodup) :
    ∀ t b, (t, b) ∈ stops.filterMap Stop.found? → (Feedback.of stops).live t.1 t.2 = b := by
  intro t b hm
  have hkeys := ((h.found_sublist hd hr hs).trans
    (Slot.turns_sublist (r.coming_sublist slots))).nodup hn
  have hlookup := lookup_of_mem hkeys hm
  show ((stops.filterMap Stop.found?).lookup t).getD true = b
  rw [hlookup]
  rfl

end Goes

end StreamFanout
