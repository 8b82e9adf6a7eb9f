import StreamFanout.Proofs.Distribution.Channels

/-!
What is seen of a pass: what it logs and the calls that it makes, in one sequence. Groups are noted
in it by channel, number and length, and single units are announced right before they are pushed.
-/
namespace StreamFanout

inductive Sighting where
  | logged (event : LogEvent)
  | called (call : SinkCall)
  deriving DecidableEq

namespace Sighting

def event? : Sighting → Option LogEvent
  | logged e => some e
  | called _ => none

def call? : Sighting → Option SinkCall
  | logged _ => none
  | called call => some call

def isUnitLogged : Sighting → Bool
  | logged (.pushingUnit ..) => true
  | _ => false

/-- Neither a group nor a unit is logged or handed over. -/
def isAside : Sighting → Bool
  | logged (.pushingGop ..) => false
  | logged (.pushingUnit ..) => false
  | called (.push ..) => false
  | _ => true

/-- The sighting, with the event that comes right before it if it is a push. -/
def announced : Sighting → List Sighting
  | called (.push c u) => [logged (.pushingUnit c u.pts), called (.push c u)]
  | s => [s]

end Sighting

def logOf (seen : List Sighting) : List LogEvent :=
  seen.filterMap Sighting.event?

def callsOf (seen : List Sighting) : List SinkCall :=
  seen.filterMap Sighting.call?

/-- Single units are logged right before they are pushed, each once, and nowhere else. -/
def Announced (seen : List Sighting) : Prop :=
  seen = (seen.filter fun s => !s.isUnitLogged).flatMap Sighting.announced

theorem Announced.append {xs ys : List Sighting} (hx : Announced xs) (hy : Announced ys) :
    Announced (xs ++ ys) := by
  unfold Announced at *
  rw [List.filter_append, List.flatMap_append, ← hx, ← hy]

/-- The group that an event notes: its channel, its number and its length. -/
def LogEvent.note? : LogEvent → Option (Channel × Nat × Nat)
  | .pushingGop c gop units => some (c, gop, units)
  | _ => none

def notes (log : List LogEvent) : List (Channel × Nat × Nat) :=
  log.filterMap LogEvent.note?

/-- The groups that are noted on `c`, each by its number and its length. -/
def notesOn (c : Channel) (log : List LogEvent) : List (Nat × Nat) :=
  ((notes log).filter (·.1 = c)).map Prod.snd

theorem logOf_append (xs ys : List Sighting) : logOf (xs ++ ys) = logOf xs ++ logOf ys :=
  List.filterMap_append

theorem callsOf_append (xs ys : List Sighting) : callsOf (xs ++ ys) = callsOf xs ++ callsOf ys :=
  List.filterMap_append

theorem notesOn_append (c : Channel) (xs ys : List LogEvent) :
    notesOn c (xs ++ ys) = notesOn c xs ++ notesOn c ys := by
  simp [notesOn, notes]

/-- What is seen keeps to `channels`: they are the only ones that are noted, and single units are
announced unless they are left out. -/
structure KeepsTo (channels : List Channel) (silent : Bool) (seen : List Sighting) : Prop where
  nodup : channels.Nodup
  foreign : ∀ c, c ∉ channels → notesOn c (logOf seen) = []
  announced : silent = false → Announced seen

theorem KeepsTo.append {channels : List Channel} {silent : Bool} {seen more : List Sighting}
    (h : KeepsTo channels silent seen) (hnotes : ∀ c, c ∉ channels → notesOn c (logOf more) = [])
    (hmore : silent = false → Announced more) : KeepsTo channels silent (seen ++ more) := by
  constructor
  · exact h.nodup
  · intro c hc
    rw [logOf_append, notesOn_append, h.foreign c hc, hnotes c hc, List.append_nil]
  · exact fun hs => (h.announced hs).append (hmore hs)

theorem Sighting.of_isAside {s : Sighting} (h : s.isAside = true) :
    s.event?.bind LogEvent.note? = none ∧
      (∀ c, s.call?.bind (SinkCall.unitOn? c) = none) ∧ Announced [s] := by
  cases s with
  | called call =>
    cases call with
    | push c u => cases h
    | endOfStream c => exact ⟨rfl, fun _ => rfl, rfl⟩
  | logged e =>
    cases e with
    | pushingGop | pushingUnit => cases h
    | _ => exact ⟨rfl, fun _ => rfl, rfl⟩

section

variable {more : List Sighting} (h : ∀ s ∈ more, s.isAside = true)

include h

theorem notesOn_aside (c : Channel) : notesOn c (logOf more) = [] := by
  have hnone : notes (logOf more) = [] := by
    rw [notes, logOf, List.filterMap_filterMap, List.filterMap_eq_nil_iff]
    exact fun s hs => (Sighting.of_isAside (h s hs)).1
  simp [notesOn, hnone]

theorem sentOn_aside (c : Channel) : sentOn c (callsOf more) = [] := by
  rw [sentOn, callsOf, List.filterMap_filterMap, List.filterMap_eq_nil_iff]
  exact fun s hs => (Sighting.of_isAside (h s hs)).2.1 c

theorem announced_aside : Announced more := by
  induction more with
  | nil => rfl
  | cons s more ih =>
    obtain ⟨hs, hmore⟩ := List.forall_mem_cons.mp h
    exact (Sighting.of_isAside hs).2.2.append (ih hmore)

end

end StreamFanout
