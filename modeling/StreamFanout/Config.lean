/-!
Settings of a fanout: the leading text of channel names, whether single units are logged, and the
depth of consumer queues.
-/

namespace StreamFanout

structure Config where
  /-- Leading text of channel names. -/
  channelPrefix : String := "src"
  /-- Leave the pushing of single units out of the log. -/
  silent : Bool := true
  /-- Depth of a consumer queue. -/
  capacity : Nat := 64
  deriving DecidableEq, Repr

namespace Config

def withChannelPrefix (c : Config) (text : String) : Config :=
  { c with channelPrefix := text }

def withSilent (c : Config) (silent : Bool) : Config :=
  { c with silent }

/-- Sets the depth of consumer queues; a queue holds at least one event. -/
def withCapacity (c : Config) (capacity : Nat) : Config :=
  { c with capacity := max 1 capacity }

end Config

end StreamFanout
