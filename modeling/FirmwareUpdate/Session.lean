import FirmwareUpdate.Throughput

/-!
# The session

What the engine remembers between packets: what it awaits on the data channel, how far the transfer
has come, and what the last digest check said. At most one thing is awaited at a time.
-/

namespace FirmwareUpdate

/-- What the next data packet is taken for. -/
inductive Activity where
  | idle
  /-- Payload for `length` bytes from `base` on. -/
  | transfer (base length : UInt32)
  | chainVector
  /-- The digest of `size` bytes from `address` on. -/
  | digest (address size : UInt32)
deriving DecidableEq, Repr

/-- The state of an update. -/
structure Session where
  activity : Activity := .idle
  /-- The address that the next payload byte is expected for. -/
  cursor : UInt32 := 0
  /-- The start of the last transfer, also once it is complete. -/
  transferBase : UInt32 := 0
  /-- The last digest checked did not match. -/
  digestFailed : Bool := false
  /-- A digest checked since the last transfer began did match. -/
  verified : Bool := false
  /-- The payload bytes taken in the last transfer. -/
  bytesRead : UInt32 := 0
  /-- The clock when the last transfer began. -/
  startedMs : UInt64 := 0
deriving DecidableEq, Repr

namespace Session

/-- The figures of a progress report at a time. A clock that went back counts as no time. -/
def throughput (s : Session) (now : UInt64) (expected : UInt32) : Throughput where
  expected := expected
  progress := s.cursor - s.transferBase
  bytes := s.bytesRead
  elapsedMs := if s.startedMs ≤ now then now - s.startedMs else 0

/-- The session once a transfer has been accepted. A match no longer counts, a failed check still does. -/
def beginTransfer (s : Session) (now : UInt64) (address length : UInt32) : Session :=
  { s with
    activity := .transfer address length
    cursor := address
    transferBase := address
    verified := false
    bytesRead := 0
    startedMs := now }

end Session

end FirmwareUpdate
