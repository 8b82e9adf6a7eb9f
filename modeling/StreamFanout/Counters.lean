/-!
Counters of a fanout and the statistics that a host reads. Units that were taken in and neither
pushed nor dropped are in flight.
-/

namespace StreamFanout

/-- What a fanout has counted since it was made. The last three counters change only when an end
of stream is over. -/
structure Counters where
  unitsIngested : Nat := 0
  unitsRejected : Nat := 0
  unitsPushed : Nat := 0
  unitsDropped : Nat := 0
  sessionsDistributed : Nat := 0
  deriving DecidableEq, Repr

/-- A reading of the counters, of what is buffered and of the number of live channels. -/
structure Stats where
  liveChannels : Nat := 0
  pendingGops : Nat := 0
  openUnits : Nat := 0
  counters : Counters := {}
  deriving DecidableEq, Repr

/-- Units taken in and neither pushed nor dropped. -/
def Counters.unitsInFlight (c : Counters) : Nat :=
  c.unitsIngested - c.unitsPushed - c.unitsDropped

end StreamFanout
