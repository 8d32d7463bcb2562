import FirmwareUpdate.Boot.Target

/-!
# From reset to the boot decision

A reset leaves a reason in a register, and the bytes of an update request in memory if the
application put them there. Both are used up before anything else happens, so a request holds for
one boot at most.
-/

namespace FirmwareUpdate.Device

/-- What a reset leaves behind, flash apart. -/
structure ResetState where
  /-- The reasons of the reset, one bit each; none after power was applied. -/
  reason : UInt32
  retained : UpdateRequest
deriving DecidableEq

namespace ResetState

def powerOn (s : ResetState) : Bool := s.reason = 0

/-- Writes a value to the register, which clears the bits written. -/
def clearReason (s : ResetState) (written : UInt32) : ResetState :=
  { s with reason := s.reason &&& ~~~written }

/-- Overwrites the request, so that no later boot finds it. -/
def scrub (s : ResetState) : ResetState := { s with retained := Vector.replicate _ 1 }

def consumed (s : ResetState) : ResetState := (s.clearReason s.reason).scrub

end ResetState

/-- Something that the device does between a reset and what it was reset for. -/
inductive StartupStep where
  | clearReason (written : UInt32)
  | scrub
  | enter (target : BootTarget)

def ResetState.after (s : ResetState) : StartupStep → ResetState
  | .clearReason written => s.clearReason written
  | .scrub => s.scrub
  | .enter _ => s

def bootTarget (s : ResetState) (record : Bytes) : BootTarget :=
  BootTarget.select (BootRecord.parse? record) (UpdateRequest.honoured s.powerOn s.retained)

/-- What the device does after a reset, first to last. It decides by what it read of reason and request
before it used them up. -/
def startup (s : ResetState) (record : Bytes) : List StartupStep :=
  [.clearReason s.reason, .scrub, .enter (bootTarget s record)]

/-- A boot: takes reason and request, and decides. -/
def boot (s : ResetState) (record : Bytes) : BootTarget × ResetState :=
  (bootTarget s record, (startup s record).foldl ResetState.after s)

end FirmwareUpdate.Device
