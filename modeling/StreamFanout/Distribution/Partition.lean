import StreamFanout.Error

/-!
Partition of the groups of a stream into contiguous blocks, one a channel. With at least as many
groups as channels every block has the same length but the last, which takes the remainder;
otherwise the first channels have one group each and the others none.
-/

namespace StreamFanout

/-- The groups `start, start + 1, …, start + length - 1` of a stream, meant for one channel. -/
structure Block where
  channel : Channel
  start : Nat
  length : Nat
  deriving DecidableEq, Repr

def Block.stop (b : Block) : Nat :=
  b.start + b.length

/-- One block for each channel, in the order of the channels, and the number of channels that the
groups do not reach. -/
structure Partition where
  blocks : List Block
  idle : Nat
  deriving DecidableEq, Repr

namespace Partition

/-- The block of the `i`-th of `n` channels when there are `gops` groups. -/
def blockAt (gops n i : Nat) (channel : Channel) : Block :=
  if gops < n then
    { channel, start := min i gops, length := if i < gops then 1 else 0 }
  else
    let base := gops / n
    let start := i * base
    { channel, start, length := if i + 1 = n then gops - start else base }

/-- Partitions `gops` groups among the channels. It fails without channels, and then without
groups. -/
def plan (gops : Nat) (channels : List Channel) : Except FanoutError Partition :=
  if channels = [] then
    .error (.noChannels gops)
  else if gops = 0 then
    .error .noData
  else
    .ok ⟨channels.mapIdx (blockAt gops channels.length), channels.length - gops⟩

def isUndersupplied (p : Partition) : Bool :=
  0 < p.idle

/-- The length of the longest block: the number of rounds in which every channel is given one
group of its block. -/
def rounds (p : Partition) : Nat :=
  p.blocks.foldl (fun r b => max r b.length) 0

end Partition

end StreamFanout
