import StreamFanout.Channel.Basic
import StreamFanout.Sum

/-!
The report of a distribution that lost nothing.
-/

namespace StreamFanout

structure Assignment where
  channel : Channel
  /-- Number of its first group in the stream. -/
  firstGop : Nat
  gopCount : Nat
  unitsPushed : Nat
  deriving DecidableEq, Repr

/-- One assignment for each channel in order of registration, and the number of channels that
received nothing because there were too few groups. -/
structure Report where
  assignments : List Assignment
  idle : Nat
  deriving DecidableEq, Repr

namespace Report

def gopCount (r : Report) : Nat :=
  sumOf Assignment.gopCount r.assignments

def unitsPushed (r : Report) : Nat :=
  sumOf Assignment.unitsPushed r.assignments

end Report

end StreamFanout
