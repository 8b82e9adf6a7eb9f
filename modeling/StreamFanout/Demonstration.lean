import StreamFanout.Decimal.Places
import StreamFanout.Delivery.Drain

/-!
A demonstration: a synthetic stream is fanned out over some consumers, each of which tells how
much it received and from when to when. The consumers read in turn whatever their queues hold,
until nothing is to come any more; each of them gets the same whatever the order of reading.
-/

namespace StreamFanout

namespace Demonstration

/-- Time between two frames in nanoseconds. -/
def frameDuration : UInt64 := 33333333

def queueDepth : Nat := 16

structure Parameters where
  channels : Nat := 3
  gops : Nat := 10
  gopLength : Nat := 30
  deriving Repr

/-- Reads a 64-bit count: decimal digits, after a plus sign or not. -/
def count? (text : String) : Option Nat :=
  let cs := match text.toList with
    | '+' :: cs => cs
    | cs => cs
  (Decimal.value? cs).filter (· < UInt64.size)

/-- Reads the number of channels, the number of groups and their length. What is absent or no count
has its default; a group has at least one frame. -/
def Parameters.ofArgs (args : List String) : Parameters :=
  let read (i default : Nat) : Nat := (args[i]?.bind count?).getD default
  let defaults : Parameters := {}
  { channels := read 0 defaults.channels
    gops := read 1 defaults.gops
    gopLength := max 1 (read 2 defaults.gopLength) }

def Parameters.frames (p : Parameters) : Nat :=
  p.gops * p.gopLength

def keyPayload : ByteArray := ⟨Array.replicate 1200 0x65⟩

def deltaPayload : ByteArray := ⟨Array.replicate 300 0x41⟩

def Parameters.frame (p : Parameters) (i : Nat) : AccessUnit where
  pts := UInt64.ofNat i * frameDuration
  payload := if i % p.gopLength = 0 then keyPayload else deltaPayload
  isKeyframe := i % p.gopLength = 0

/-- What a consumer has received: its frames, its keyframes, and the first and the last time. -/
structure Tally where
  frames : Nat := 0
  keyframes : Nat := 0
  range : Option (UInt64 × UInt64) := none

def Tally.add (t : Tally) (u : AccessUnit) : Tally where
  frames := t.frames + 1
  keyframes := if u.isKeyframe then t.keyframes + 1 else t.keyframes
  range := some ((t.range.map Prod.fst).getD u.pts, u.pts)

def Tally.read (t : Tally) (readings : List Reading) : Tally :=
  readings.foldl (fun t r => match r with
    | .event (.unit u) => t.add u
    | _ => t) t

structure Consumer where
  channel : Channel
  queue : Nat
  tally : Tally := {}

def seconds (pts : UInt64) : String :=
  let (num, den) := Decimal.significant pts.toNat 1
  let (num, den) := Decimal.significant num (den * 1000000000)
  Decimal.places 3 num den

def Consumer.line (lead : String) (c : Consumer) : String :=
  c.channel.name lead ++ match c.tally.range with
    | none => ": no data"
    | some (first, last) =>
      ": " ++ Decimal.text c.tally.frames ++ " frames, " ++ Decimal.text c.tally.keyframes ++
        " GOPs, pts " ++ seconds first ++ "s.." ++ seconds last ++ "s"

def summary (c : Counters) : String :=
  "ingested " ++ Decimal.text c.unitsIngested ++ " units, pushed " ++ Decimal.text c.unitsPushed ++
    ", dropped " ++ Decimal.text c.unitsDropped

inductive Failure where
  /-- The consumers do not all get a channel. -/
  | registration (e : FanoutError)
  /-- The frames cannot be counted in 64 bits. -/
  | tooManyFrames
  deriving DecidableEq, Repr

def Failure.message : Failure → String
  | registration e => e.message
  | tooManyFrames => "Too many frames"

/-- Registers a number of channels and attaches a consumer to each. -/
def subscribe (d : Dispatcher) : Nat → Except FanoutError (List Consumer × Dispatcher)
  | 0 => .ok ([], d)
  | n + 1 =>
    match (d.fanout.request none).value with
    | (.error e, _) => .error e
    | (.ok channel, fanout) => do
      let (queue, d) := { d with fanout }.attach channel
      let (consumers, d) ← subscribe d n
      pure ({ channel, queue } :: consumers, d)

/-- A dispatcher with a consumer for each channel. When there are more channels than indices,
one is bound to be left without an index, so none is registered. -/
def prepare (config : Config) (channels : Nat) : Except FanoutError (List Consumer × Dispatcher) :=
  if channels ≤ UInt32.size then
    subscribe { fanout := { config }, board := .ofCapacity config.capacity } channels
  else
    .error .channelsExhausted

def ingest (p : Parameters) (d : Dispatcher) : Dispatcher :=
  (List.range p.frames).foldl (fun d i => (d.perform (.arrive (p.frame i))).value.2) d

/-- Ends the stream. When nothing is distributed the consumers are detached, so that they do not
wait for an end of stream. -/
def endStream (d : Dispatcher) : Dispatcher :=
  match d.endStream.value with
  | (.finished (.streamEnded (.error _)), d) =>
    d.fanout.live.foldl (fun d c => (d.detach c).2) d
  | (_, d) => d

def readAll (d : Dispatcher) : List Consumer → List Consumer × Dispatcher
  | [] => ([], d)
  | c :: consumers =>
    let drained := (d.drain c.queue).value
    let (rest, d) := readAll drained.dispatcher consumers
    ({ c with tally := c.tally.read drained.readings } :: rest, d)

def deliver (d : Dispatcher) (consumers : List Consumer) : List Consumer × Dispatcher :=
  let next := readAll d consumers
  if next.2.eventsToCome < d.eventsToCome then deliver next.2 next.1 else next
termination_by d.eventsToCome

/-- What the demonstration prints: a line for each consumer in order of registration, and the
summary. -/
structure Output where
  lines : List String
  summary : String

def run (p : Parameters) : Except Failure Output := do
  let config := Config.withCapacity {} queueDepth
  let (consumers, d) ← (prepare config p.channels).mapError .registration
  if p.frames < UInt64.size then
    let (consumers, d) := deliver (endStream (ingest p d)) consumers
    pure
      { lines := consumers.map (·.line config.channelPrefix)
        summary := summary d.fanout.counters }
  else
    throw .tooManyFrames

end Demonstration

end StreamFanout
