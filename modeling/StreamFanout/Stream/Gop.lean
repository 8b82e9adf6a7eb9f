import StreamFanout.Stream.AccessUnit
import StreamFanout.Sum

/-!
Groups of pictures: non-empty runs of access units that are delivered together. A group is built
by appending, and its view is the list of its units in order of arrival.
-/

namespace StreamFanout

/-- A non-empty group of access units, in order of arrival. -/
structure Gop where
  first : AccessUnit
  rest : Array AccessUnit := #[]
  deriving DecidableEq

namespace Gop

def units (g : Gop) : List AccessUnit :=
  g.first :: g.rest.toList

def length (g : Gop) : Nat :=
  g.rest.size + 1

def push (g : Gop) (u : AccessUnit) : Gop :=
  { g with rest := g.rest.push u }

def last (g : Gop) : AccessUnit :=
  g.rest.back?.getD g.first

def size (g : Gop) : Nat :=
  sumOf AccessUnit.size g.units

def ptsRange (g : Gop) : UInt64 × UInt64 :=
  (g.first.pts, g.last.pts)

@[simp] theorem units_push (g : Gop) (u : AccessUnit) : (g.push u).units = g.units ++ [u] := by
  simp [units, push]

@[simp] theorem units_singleton (u : AccessUnit) : (Gop.mk u #[]).units = [u] := rfl

@[simp] theorem length_units (g : Gop) : g.units.length = g.length := by
  simp [units, length]

theorem length_pos (g : Gop) : 0 < g.length :=
  Nat.succ_pos _

def unitCount (gs : List Gop) : Nat :=
  sumOf length gs

@[simp] theorem unitCount_nil : unitCount [] = 0 := rfl

@[simp] theorem unitCount_cons (g : Gop) (gs : List Gop) :
    unitCount (g :: gs) = g.length + unitCount gs := rfl

end Gop

end StreamFanout
