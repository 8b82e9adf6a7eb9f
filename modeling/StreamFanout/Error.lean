import StreamFanout.Channel.Basic

/-!
Why a push is refused and why a host call fails, with the texts that the log and the host see.
-/

namespace StreamFanout

inductive Refusal where
  /-- No consumer is attached to the channel. -/
  | channelNotFound (channel : Channel)
  /-- The consumer of the channel no longer takes events. -/
  | channelClosed (channel : Channel)
  /-- The sink has a reason of its own. -/
  | rejected (reason : String)
  deriving DecidableEq, Repr

/-- Why a host call fails. -/
inductive FanoutError where
  /-- The requested channel is live already. -/
  | duplicateChannel (channel : Channel)
  /-- No index at or above the watermark is free. -/
  | channelsExhausted
  /-- The access unit cannot be taken. -/
  | invalidUnit (reason : String)
  /-- The stream ended with no live channel; its groups are discarded. -/
  | noChannels (discarded : Nat)
  /-- The stream ended with no group. -/
  | noData
  /-- A unit of each of these channels was not delivered. -/
  | pushFailed (channels : List Channel)
  deriving DecidableEq, Repr

instance decidableEqExcept {ε α : Type} [DecidableEq ε] [DecidableEq α] : DecidableEq (Except ε α)
  | .ok a, .ok b => decidable_of_iff (a = b) ⟨congrArg Except.ok, Except.ok.inj⟩
  | .error a, .error b => decidable_of_iff (a = b) ⟨congrArg Except.error, Except.error.inj⟩
  | .ok _, .error _ => isFalse nofun
  | .error _, .ok _ => isFalse nofun

def Refusal.message : Refusal → String
  | channelNotFound c => "Channel not found: " ++ c.text
  | channelClosed c => "Channel closed: " ++ c.text
  | rejected reason => "Push rejected: " ++ reason

def channelListText : List Channel → String
  | [] => ""
  | c :: cs => " " ++ c.text ++ channelListText cs

def FanoutError.message : FanoutError → String
  | duplicateChannel c => "Channel index is not unique: " ++ c.text
  | channelsExhausted => "No free channel index left"
  | invalidUnit reason => "Invalid access unit: " ++ reason
  | noChannels n => "No channels to distribute to (" ++ Decimal.text n ++ " GOPs discarded)"
  | noData => "No GOPs available to distribute"
  | pushFailed cs =>
    "Push failed on " ++ Decimal.text cs.length ++ " channel(s):" ++ channelListText cs

end StreamFanout
