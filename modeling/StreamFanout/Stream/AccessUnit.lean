import StreamFanout.Error

/-!
Access units: the compressed frames that a stream is made of. The payload is carried along and
never looked into; only its being empty matters.
-/

namespace StreamFanout

/-- Payloads are compared as bytes, whichever other instances are imported. -/
instance decidableEqPayload : DecidableEq ByteArray := ByteArray.instDecidableEq

/-- One compressed frame of a stream. -/
structure AccessUnit where
  /-- Presentation time in nanoseconds. -/
  pts : UInt64
  /-- The encoded frame. -/
  payload : ByteArray
  /-- The frame can be decoded without an earlier one. -/
  isKeyframe : Bool
  /-- The frame starts a new group. -/
  discont : Bool := false
  deriving DecidableEq

namespace AccessUnit

def size (u : AccessUnit) : Nat :=
  u.payload.size

def validate (u : AccessUnit) : Except FanoutError Unit :=
  if u.size = 0 then .error (.invalidUnit "empty payload") else .ok ()

/-- The unit as it is grouped: a keyframe starts a group and is marked so. -/
def marked (u : AccessUnit) : AccessUnit :=
  { u with discont := u.discont || u.isKeyframe }

end AccessUnit

end StreamFanout
