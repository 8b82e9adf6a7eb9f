import StreamFanout.Distribution.Partition
import StreamFanout.Distribution.Report
import StreamFanout.Stream.Gop

/-!
Lanes: how far a distribution has come on each channel. The groups of a stream are cut into lanes
along the blocks of a partition; a lane gives away its groups from the front, and a lane that
fails gives up all that is left of it.
-/

namespace StreamFanout

/-- The groups of one block that are still to be pushed, and what became of the units of the
others. -/
structure Lane where
  block : Block
  queue : List Gop
  pushed : Nat := 0
  dropped : Nat := 0
  /-- Some unit of the block was not delivered. -/
  failed : Bool := false
  deriving DecidableEq

namespace Lane

abbrev channel (lane : Lane) : Channel :=
  lane.block.channel

def accept (lane : Lane) : Lane :=
  { lane with pushed := lane.pushed + 1 }

/-- Gives up the queue and `lost` units that have left it. -/
def abandon (lane : Lane) (lost : Nat) : Lane :=
  { lane with
    queue := []
    dropped := lane.dropped + lost + Gop.unitCount lane.queue
    failed := true }

def assignment (lane : Lane) : Assignment where
  channel := lane.channel
  firstGop := lane.block.start
  gopCount := lane.block.length
  unitsPushed := lane.pushed

def cut : List Block → List Gop → List Lane
  | [], _ => []
  | b :: bs, gops => { block := b, queue := gops.take b.length } :: cut bs (gops.drop b.length)

/-- Number of groups and of units in the queues of some lanes, taken together. -/
def backlog (lanes : List Lane) : Nat :=
  sumOf (fun lane => lane.queue.length + Gop.unitCount lane.queue) lanes

def totalPushed (lanes : List Lane) : Nat :=
  sumOf pushed lanes

def totalDropped (lanes : List Lane) : Nat :=
  sumOf dropped lanes

def failedChannels (lanes : List Lane) : List Channel :=
  (lanes.filter failed).map channel

@[simp] theorem backlog_nil : backlog [] = 0 := rfl

@[simp] theorem backlog_cons (lane : Lane) (lanes : List Lane) :
    backlog (lane :: lanes) = lane.queue.length + Gop.unitCount lane.queue + backlog lanes := rfl

@[simp] theorem backlog_append (xs ys : List Lane) :
    backlog (xs ++ ys) = backlog xs + backlog ys := by
  simp [backlog]

@[simp] theorem queue_abandon (lane : Lane) (lost : Nat) : (lane.abandon lost).queue = [] := rfl

@[simp] theorem queue_accept (lane : Lane) : lane.accept.queue = lane.queue := rfl

end Lane

end StreamFanout
