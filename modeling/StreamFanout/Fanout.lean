import StreamFanout.Channel.Roster
import StreamFanout.Config
import StreamFanout.Counters
import StreamFanout.Distribution.Pass
import StreamFanout.Stream.Grouping

/-!
A fanout takes in a stream, groups it at its keyframes and, when the stream ends, distributes the
groups over the live channels. The end of a stream takes all groups and the list of live channels
in one step; the pass that then delivers them is a value of its own, so the fanout takes in units
and channels of the next stream while a pass waits. A pass touches the fanout again only to look a
channel up and, when it ends, to add to the counters, and each time in a step of its own.
-/

namespace StreamFanout

structure Fanout where
  config : Config := {}
  roster : Roster := {}
  grouping : Grouping := {}
  counters : Counters := {}

inductive Outcome where
  | suspended (pass : Pass)
  | ended (result : Except FanoutError Report)

def Outcome.stepsLeft : Outcome → Nat
  | suspended pass => pass.stepsLeft
  | ended _ => 0

namespace Fanout

def live (f : Fanout) : List Channel :=
  f.roster.live

def stats (f : Fanout) : Stats where
  liveChannels := f.roster.live.length
  pendingGops := f.grouping.closed.size
  openUnits := f.grouping.openLength
  counters := f.counters

def countArrival (counters : Counters) : Except FanoutError Unit → Counters
  | .ok () => { counters with unitsIngested := counters.unitsIngested + 1 }
  | .error _ => { counters with unitsRejected := counters.unitsRejected + 1 }

/-- Takes in one unit. A refused unit is counted and otherwise leaves no trace. -/
def arrive : Fanout → AccessUnit → Logged (Except FanoutError Unit × Fanout)
  | ⟨config, roster, grouping, counters⟩, u => do
    let (result, grouping) ← grouping.ingest u
    if let .error e := result then
      Logged.emit (.unitRefused u.pts e)
    pure (result, ⟨config, roster, grouping, countArrival counters result⟩)

/-- Takes in several units, and tells how many were accepted and how many refused. -/
def arriveAll (f : Fanout) : List AccessUnit → Logged ((Nat × Nat) × Fanout)
  | [] => pure ((0, 0), f)
  | u :: us => do
    let (r, f) ← f.arrive u
    let ((accepted, rejected), f) ← f.arriveAll us
    match r with
    | .ok () => pure ((accepted + 1, rejected), f)
    | .error _ => pure ((accepted, rejected + 1), f)

/-- Registers the requested channel, or the next automatic one. -/
def request (f : Fanout) (requested : Option Channel) :
    Logged (Except FanoutError Channel × Fanout) :=
  match f.roster.register requested with
  | .ok (c, roster) => do
    Logged.emit (.channelRegistered c (c.name f.config.channelPrefix) roster.live.length)
    pure (.ok c, { f with roster })
  | .error e => do
    Logged.emit (.requestRejected e)
    pure (.error e, f)

/-- Registers the channel of a given name. A text that is no channel name gets the next automatic
channel. -/
def requestNamed (f : Fanout) (name : String) : Logged (Except FanoutError Channel × Fanout) := do
  let requested := Channel.ofName? f.config.channelPrefix name
  if requested.isNone then
    Logged.emit (.nameUnmatched name)
  f.request requested

def release (f : Fanout) (c : Channel) : Logged (Bool × Fanout) :=
  if f.roster.contains c then do
    let roster := f.roster.unregister c
    Logged.emit (.channelReleased c roster.live.length)
    pure (true, { f with roster })
  else
    pure (false, f)

/-- Books a finished pass: its units are counted as pushed or dropped in one step, and the result
names the channels that lost a unit. -/
def book (f : Fanout) (plan : Partition) (lanes : List Lane) :
    Logged (Except FanoutError Report × Fanout) := do
  let pushed := Lane.totalPushed lanes
  let dropped := Lane.totalDropped lanes
  let counters := { f.counters with
    unitsPushed := f.counters.unitsPushed + pushed
    unitsDropped := f.counters.unitsDropped + dropped
    sessionsDistributed := f.counters.sessionsDistributed + 1 }
  let failed := Lane.failedChannels lanes
  if failed = [] then
    Logged.emit (.finished pushed)
    pure (.ok ⟨lanes.map Lane.assignment, plan.idle⟩, { f with counters })
  else
    Logged.emit (.finishedWithLoss failed.length dropped)
    pure (.error (.pushFailed failed), { f with counters })

def discard (f : Fanout) (gops : List Gop) : Fanout :=
  { f with counters := { f.counters with
      unitsDropped := f.counters.unitsDropped + Gop.unitCount gops } }

def follow (f : Fanout) : Progress → Logged (Outcome × Fanout)
  | .waiting pass => pure (.suspended pass, f)
  | .finished plan lanes => do
    let (result, f) ← f.book plan lanes
    pure (.ended result, f)
  | .discarded gops => pure (.ended (.error (.noChannels gops.length)), f.discard gops)

/-- Sets out to distribute some groups over some channels along a partition. Without channels it
remains to count the units of the groups as dropped, and without groups there is nothing to do. -/
def distribute (gops : List Gop) (channels : List Channel) : Logged Outcome :=
  match Partition.plan gops.length channels with
  | .error (.noChannels n) => do
    Logged.emit (.groupsDiscarded n (Gop.unitCount gops))
    pure (.suspended (.discarding gops))
  | .error e => do
    Logged.emit .nothingToDistribute
    pure (.ended (.error e))
  | .ok plan => do
    if plan.isUndersupplied then
      Logged.emit (.undersupplied gops.length channels.length plan.idle)
    Logged.emit (.distributing gops.length channels.length)
    pure (.suspended (Pass.start plan (Lane.cut plan.blocks gops)))

/-- Ends the stream: takes all groups and the live channels, and sets out to distribute the ones
over the others. The next stream starts with nothing buffered, whatever becomes of this one. -/
def endStream (f : Fanout) : Logged (Outcome × Fanout) := do
  let gops ← f.grouping.finalize
  let channels := f.live
  Logged.emit (.streamEnded gops.length channels.length)
  let outcome ← distribute gops channels
  pure (outcome, { f with grouping := {} })

def resume (f : Fanout) (pass : Pass) (answer : Answer) : Logged (Outcome × Fanout) := do
  f.follow (← pass.resume f.roster.contains f.config.silent answer)

theorem stepsLeft_follow (f : Fanout) (p : Progress) :
    (f.follow p).value.1.stepsLeft = p.stepsLeft := by
  cases p <;> rfl

theorem stepsLeft_resume_lt (f : Fanout) (pass : Pass) (answer : Answer) :
    (f.resume pass answer).value.1.stepsLeft < pass.stepsLeft := by
  rw [resume, Logged.value_bind, stepsLeft_follow]
  exact Pass.stepsLeft_resume_lt _ _ answer pass

end Fanout

/-- A call of the host that is over at once. -/
inductive HostCall where
  | arrive (unit : AccessUnit)
  | arriveAll (units : List AccessUnit)
  | request (channel : Option Channel)
  | requestNamed (name : String)
  | release (channel : Channel)
  | live
  | stats
  | config
  deriving DecidableEq

inductive HostResult where
  | arrived (result : Except FanoutError Unit)
  | arrivedAll (accepted rejected : Nat)
  | requested (result : Except FanoutError Channel)
  | released (wasLive : Bool)
  | streamEnded (result : Except FanoutError Report)
  | live (channels : List Channel)
  | stats (stats : Stats)
  | config (config : Config)
  deriving DecidableEq

def Fanout.perform (f : Fanout) : HostCall → Logged (HostResult × Fanout)
  | .arrive u => do
    let (r, f) ← f.arrive u
    pure (.arrived r, f)
  | .arriveAll us => do
    let ((accepted, rejected), f) ← f.arriveAll us
    pure (.arrivedAll accepted rejected, f)
  | .request c => do
    let (r, f) ← f.request c
    pure (.requested r, f)
  | .requestNamed name => do
    let (r, f) ← f.requestNamed name
    pure (.requested r, f)
  | .release c => do
    let (wasLive, f) ← f.release c
    pure (.released wasLive, f)
  | .live => pure (.live f.live, f)
  | .stats => pure (.stats f.stats, f)
  | .config => pure (.config f.config, f)

end StreamFanout
