import StreamFanout.Logged
import StreamFanout.Stream.Gop

/-!
Grouping a stream at its keyframes. A keyframe closes the group that is being filled and starts
the next one; the first group may start without a keyframe. The view of a grouping is the list of
all its groups, closed ones first.
-/

namespace StreamFanout

/-- The groups of a stream so far: the closed ones, and the one being filled, if any. -/
structure Grouping where
  closed : Array Gop := #[]
  current : Option Gop := none

namespace Grouping

/-- All groups in stream order, the one being filled last. -/
def groups (g : Grouping) : List Gop :=
  g.closed.toList ++ g.current.toList

def openLength (g : Grouping) : Nat :=
  match g.current with
  | some gop => gop.length
  | none => 0

def isEmpty (g : Grouping) : Bool :=
  g.closed.isEmpty && g.current.isNone

def close (g : Grouping) : Logged Grouping :=
  match g.current with
  | none => pure g
  | some gop => do
    let closed := g.closed.push gop
    Logged.emit (.gopClosed closed.size gop.length)
    pure { closed }

def append (g : Grouping) (u : AccessUnit) : Grouping :=
  match g.current with
  | some gop => { g with current := some (gop.push u) }
  | none => { g with current := some ⟨u, #[]⟩ }

/-- Takes a unit. A keyframe closes the group being filled and is marked as the start of the
next; a unit without a payload is refused and changes nothing. -/
def ingest (g : Grouping) (u : AccessUnit) : Logged (Except FanoutError Unit × Grouping) :=
  match u.validate with
  | .error e => pure (.error e, g)
  | .ok () => do
    let g ← if u.isKeyframe then g.close else pure g
    Logged.emit (.unitArrived u.pts u.isKeyframe)
    pure (.ok (), g.append u.marked)

/-- Closes the group being filled and hands out all groups; the grouping that remains is the
empty one. -/
def finalize (g : Grouping) : Logged (List Gop) := do
  let g ← g.close
  pure g.closed.toList

end Grouping

end StreamFanout
