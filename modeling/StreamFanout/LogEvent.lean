import StreamFanout.Error

/-!
What is logged. Each kind of event has a level, a fixed message and named fields in a fixed order.
-/

namespace StreamFanout

inductive Level where
  | trace | debug | info | warn | error
  deriving DecidableEq, Repr

def Level.text : Level → String
  | trace => "TRACE"
  | debug => "DEBUG"
  | info => "INFO"
  | warn => "WARN"
  | error => "ERROR"

/-- One log event. Counts of groups and units are plain numbers. -/
inductive LogEvent where
  | unitArrived (pts : UInt64) (isKeyframe : Bool)
  /-- A group was closed; `gop` counts the closed groups with this one. -/
  | gopClosed (gop units : Nat)
  | unitRefused (pts : UInt64) (error : FanoutError)
  /-- The stream ended and its groups were taken. -/
  | streamEnded (gops channels : Nat)
  /-- All groups are lost because no channel is live. -/
  | groupsDiscarded (gops units : Nat)
  | nothingToDistribute
  | undersupplied (gops channels idle : Nat)
  | distributing (gops channels : Nat)
  /-- A channel was found released at its turn. -/
  | channelLost (channel : Channel)
  /-- A group is about to be pushed; `gop` is its number in the stream. -/
  | pushingGop (channel : Channel) (gop units : Nat)
  | pushingUnit (channel : Channel) (pts : UInt64)
  | pushRefused (channel : Channel) (error : Refusal)
  | finishedWithLoss (failed droppedUnits : Nat)
  | finished (units : Nat)
  /-- A channel was registered; `channels` counts the live ones with it. -/
  | channelRegistered (channel : Channel) (name : String) (channels : Nat)
  | requestRejected (error : FanoutError)
  /-- A requested name does not have the form of a channel name. -/
  | nameUnmatched (name : String)
  /-- A channel was released; `channels` counts those still live. -/
  | channelReleased (channel : Channel) (channels : Nat)
  /-- An end of stream met a closed queue. -/
  | consumerGone (channel : Channel)
  deriving DecidableEq, Repr

namespace LogEvent

def level : LogEvent → Level
  | unitArrived .. => .trace
  | gopClosed .. | pushingGop .. | pushingUnit .. | nameUnmatched .. | consumerGone .. => .debug
  | streamEnded .. | distributing .. | finished .. | channelRegistered .. | channelReleased .. =>
    .info
  | unitRefused .. | undersupplied .. | channelLost .. | pushRefused .. => .warn
  | groupsDiscarded .. | nothingToDistribute | finishedWithLoss .. | requestRejected .. => .error

def message : LogEvent → String
  | unitArrived .. => "unit arrived"
  | gopClosed .. => "gop closed"
  | unitRefused .. => "Dropping access unit"
  | streamEnded .. => "End of stream"
  | groupsDiscarded .. => "No channels, discarding pending GOPs"
  | nothingToDistribute => "No GOPs available to distribute"
  | undersupplied .. => "Fewer GOPs than channels, some channels receive nothing"
  | distributing .. => "Distributing GOPs"
  | channelLost .. => "Channel released during distribution, dropping its GOPs"
  | pushingGop .. => "Pushing GOP"
  | pushingUnit .. => "unit pushed"
  | pushRefused .. => "Push failed, dropping the rest of this channel's GOPs"
  | finishedWithLoss .. => "Distribution finished with push failures"
  | finished .. => "Distribution finished"
  | channelRegistered .. => "Channel registered"
  | requestRejected .. => "Channel request rejected"
  | nameUnmatched .. => "Name does not match template, assigning index"
  | channelReleased .. => "Channel released"
  | consumerGone .. => "consumer gone before end of stream"

/-- The fields of an event, each a name and a text, in the order in which they are written. -/
def fields : LogEvent → List (String × String)
  | unitArrived pts isKeyframe =>
    [("pts", Decimal.text pts.toNat), ("keyframe", if isKeyframe then "true" else "false")]
  | gopClosed gop units => [("gop", Decimal.text gop), ("units", Decimal.text units)]
  | unitRefused pts error => [("pts", Decimal.text pts.toNat), ("error", error.message)]
  | streamEnded gops channels | distributing gops channels =>
    [("gops", Decimal.text gops), ("channels", Decimal.text channels)]
  | groupsDiscarded gops units => [("gops", Decimal.text gops), ("units", Decimal.text units)]
  | nothingToDistribute => []
  | undersupplied gops channels idle =>
    [("gops", Decimal.text gops), ("channels", Decimal.text channels), ("idle", Decimal.text idle)]
  | channelLost channel | consumerGone channel => [("channel", channel.text)]
  | pushingGop channel gop units =>
    [("channel", channel.text), ("gop", Decimal.text gop), ("units", Decimal.text units)]
  | pushingUnit channel pts => [("channel", channel.text), ("pts", Decimal.text pts.toNat)]
  | pushRefused channel error => [("channel", channel.text), ("error", error.message)]
  | finishedWithLoss failed droppedUnits =>
    [("failed", Decimal.text failed), ("dropped_units", Decimal.text droppedUnits)]
  | finished units => [("units", Decimal.text units)]
  | channelRegistered channel name channels =>
    [("channel", channel.text), ("name", name), ("channels", Decimal.text channels)]
  | requestRejected error => [("error", error.message)]
  | nameUnmatched name => [("name", name)]
  | channelReleased channel channels =>
    [("channel", channel.text), ("channels", Decimal.text channels)]

end LogEvent

end StreamFanout
