import StreamFanout.Distribution.Lane
import StreamFanout.Logged

/-!
A distribution pass as a value. A pass goes round the lanes, as many rounds as the longest block
has groups, and pushes one group of each lane in turn; then it sends the end of the stream to every
channel and counts its units. It stands still wherever it waits: at each call of the sink until the
call is answered, and where it needs the fanout until it has the fanout's lock. Nothing else is
needed to continue it, so whoever holds the pass may let anything run in between, or drop it.

A channel is looked up once for each of its groups, when it is the turn of the group. Every stop
that a pass leaves brings it nearer to its end.
-/

namespace StreamFanout

inductive SinkCall where
  | push (channel : Channel) (unit : AccessUnit)
  | endOfStream (channel : Channel)
  deriving DecidableEq

/-- How the sink answers a push. An end of stream is always accepted. -/
inductive Answer where
  | accepted
  | refused (reason : Refusal)
  deriving DecidableEq, Repr

/-- A pass at one of its stops. In the rounds, `served` are the lanes that had their turn in this
round, `upcoming` those that wait for it, and `round` is the number of rounds before this one. -/
inductive Pass where
  /-- It is the turn of `gop`, which has left the queue of its lane: the pass needs the fanout to
  look the channel up. -/
  | looking (plan : Partition) (served : List Lane) (lane : Lane) (gop : Gop)
      (upcoming : List Lane) (round : Nat := 0)
  /-- A push of `unit` is under way; `rest` is what follows it in its group. -/
  | pushing (plan : Partition) (served : List Lane) (lane : Lane) (unit : AccessUnit)
      (rest : List AccessUnit) (upcoming : List Lane) (round : Nat := 0)
  /-- An end of stream is under way, with the channels that follow. -/
  | ending (plan : Partition) (lanes : List Lane) (channel : Channel) (rest : List Channel)
  /-- All calls are made: the pass needs the fanout to count its units. -/
  | booking (plan : Partition) (lanes : List Lane)
  /-- There are no channels: the pass needs the fanout to count its units as dropped. -/
  | discarding (gops : List Gop)
  deriving DecidableEq

inductive Progress where
  | waiting (pass : Pass)
  | finished (plan : Partition) (lanes : List Lane)
  | discarded (gops : List Gop)
  deriving DecidableEq

namespace Pass

/-- The call of the sink that a pass waits for, if it does not wait for the fanout. -/
def call? : Pass → Option SinkCall
  | pushing _ _ lane unit .. => some (.push lane.channel unit)
  | ending _ _ channel _ => some (.endOfStream channel)
  | looking .. | booking .. | discarding _ => none

/-- Logs that a unit is about to be pushed, unless single units are left out of the log. -/
def announce (silent : Bool) (channel : Channel) (unit : AccessUnit) : Logged Unit :=
  if silent then pure () else Logged.emit (.pushingUnit channel unit.pts)

/-- The next of the upcoming lanes that has a group, at the turn of this group. -/
def seek (plan : Partition) (round : Nat) (served : List Lane) : List Lane → Option Pass
  | [] => none
  | lane :: upcoming =>
    match lane.queue with
    | [] => seek plan round (served ++ [lane]) upcoming
    | gop :: queue => some (.looking plan served { lane with queue } gop upcoming round)

def conclude (plan : Partition) (lanes : List Lane) : Pass :=
  match lanes.map Lane.channel with
  | [] => .booking plan lanes
  | c :: cs => .ending plan lanes c cs

/-- Goes on to the next turn, in this round or in one of the `left` rounds after it, and to the ends
of stream when no turn is left. -/
def advance (plan : Partition) : (left round : Nat) → (served upcoming : List Lane) → Pass
  | 0, round, served, upcoming =>
    (seek plan round served upcoming).getD (conclude plan (served ++ upcoming))
  | left + 1, round, served, upcoming =>
    (seek plan round served upcoming).getD (advance plan left (round + 1) [] (served ++ upcoming))

def next (plan : Partition) (round : Nat) (served upcoming : List Lane) : Pass :=
  advance plan (plan.rounds - (round + 1)) round served upcoming

def start (plan : Partition) (lanes : List Lane) : Pass :=
  match plan.rounds with
  | 0 => conclude plan lanes
  | left + 1 => advance plan left 0 [] lanes

/-- Continues a pass: with the answer of the sink where it waits for one, and otherwise with the
channels that are live. The group of a turn is logged by the start of its block and the round
together. A channel that is not live gives up the groups of its lane, and a refused push what is
left of them; the other lanes stay as they are. -/
def resume (live : Channel → Bool) (silent : Bool) (answer : Answer) : Pass → Logged Progress
  | looking plan served lane gop upcoming round =>
    if live lane.channel then do
      Logged.emit (.pushingGop lane.channel (lane.block.start + round) gop.length)
      announce silent lane.channel gop.first
      pure (.waiting (.pushing plan served lane gop.first gop.rest.toList upcoming round))
    else do
      Logged.emit (.channelLost lane.channel)
      pure (.waiting (next plan round (served ++ [lane.abandon gop.length]) upcoming))
  | pushing plan served lane _ rest upcoming round =>
    match answer with
    | .accepted =>
      match rest with
      | [] => pure (.waiting (next plan round (served ++ [lane.accept]) upcoming))
      | unit :: rest => do
        announce silent lane.channel unit
        pure (.waiting (.pushing plan served lane.accept unit rest upcoming round))
    | .refused reason => do
      Logged.emit (.pushRefused lane.channel reason)
      pure (.waiting (next plan round (served ++ [lane.abandon (1 + rest.length)]) upcoming))
  | ending plan lanes _ rest =>
    match rest with
    | [] => pure (.waiting (.booking plan lanes))
    | c :: rest => pure (.waiting (.ending plan lanes c rest))
  | booking plan lanes => pure (.finished plan lanes)
  | discarding gops => pure (.discarded gops)

/-- The number of stops that are left at most, the present one included. -/
def stepsLeft : Pass → Nat
  | looking _ served lane gop upcoming _ =>
    2 + gop.length + Lane.backlog (served ++ lane :: upcoming) + (served ++ lane :: upcoming).length
  | pushing _ served lane _ rest upcoming _ =>
    2 + rest.length + Lane.backlog (served ++ lane :: upcoming) +
      (served ++ lane :: upcoming).length
  | ending _ _ _ rest => 2 + rest.length
  | booking .. | discarding _ => 1

theorem stepsLeft_pos (p : Pass) : 0 < p.stepsLeft := by
  cases p <;> simp only [stepsLeft] <;> omega

end Pass

def Progress.stepsLeft : Progress → Nat
  | waiting p => p.stepsLeft
  | finished .. | discarded _ => 0

namespace Pass

variable (plan : Partition)

theorem stepsLeft_seek_le (round : Nat) (served upcoming : List Lane) :
    ∀ p ∈ seek plan round served upcoming, p.stepsLeft ≤
      1 + Lane.backlog (served ++ upcoming) + (served ++ upcoming).length := by
  induction upcoming generalizing served with
  | nil => exact nofun
  | cons lane upcoming ih =>
    rw [seek]
    split
    · simpa using ih (served ++ [lane])
    · next gop queue hq =>
      rintro p hp
      cases hp
      simp [stepsLeft, hq, Gop.length]
      omega

theorem stepsLeft_conclude_le (lanes : List Lane) :
    (conclude plan lanes).stepsLeft ≤ 1 + lanes.length := by
  cases lanes with
  | nil => exact Nat.le_refl _
  | cons lane lanes =>
    simp [conclude, stepsLeft]
    omega

theorem stepsLeft_advance_le (left round : Nat) (served upcoming : List Lane) :
    (advance plan left round served upcoming).stepsLeft ≤
      1 + Lane.backlog (served ++ upcoming) + (served ++ upcoming).length := by
  induction left generalizing round served upcoming with
  | zero =>
    have h := stepsLeft_seek_le plan round served upcoming
    rw [advance]
    cases hs : seek plan round served upcoming with
    | some p => exact h p hs
    | none =>
      have hc := stepsLeft_conclude_le plan (served ++ upcoming)
      rw [Option.getD_none]
      omega
  | succ left ih =>
    have h := stepsLeft_seek_le plan round served upcoming
    rw [advance]
    cases hs : seek plan round served upcoming with
    | some p => exact h p hs
    | none => exact ih (round + 1) [] (served ++ upcoming)

/-- Every stop that a pass leaves leaves fewer stops. -/
theorem stepsLeft_resume_lt (live : Channel → Bool) (silent : Bool) (answer : Answer) (p : Pass) :
    (resume live silent answer p).value.stepsLeft < p.stepsLeft := by
  have behind (plan : Partition) (round : Nat) (served : List Lane) (l : Lane)
      (upcoming : List Lane) := stepsLeft_advance_le plan (plan.rounds - (round + 1)) round
        (served ++ [l]) upcoming
  cases p with
  | looking plan served lane gop upcoming round =>
    rw [resume]
    split
    · simp [Progress.stepsLeft, stepsLeft, Gop.length]
    · have h := behind plan round served (lane.abandon gop.length) upcoming
      simp [Progress.stepsLeft, stepsLeft, next] at h ⊢
      omega
  | pushing plan served lane unit rest upcoming round =>
    cases answer with
    | accepted =>
      cases rest with
      | nil =>
        have h := behind plan round served lane.accept upcoming
        simp [resume, Progress.stepsLeft, stepsLeft, next] at h ⊢
        omega
      | cons unit rest => simp [resume, Progress.stepsLeft, stepsLeft]
    | refused reason =>
      have h := behind plan round served (lane.abandon (1 + rest.length)) upcoming
      simp [resume, Progress.stepsLeft, stepsLeft, next] at h ⊢
      omega
  | ending plan lanes channel rest =>
    cases rest <;> simp [resume, Progress.stepsLeft, stepsLeft]
  | booking plan lanes => exact Nat.one_pos
  | discarding gops => exact Nat.one_pos

end Pass

end StreamFanout
