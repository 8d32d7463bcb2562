/-!
# Throughput

How far a transfer has come, how many bytes it took and how long.
-/

namespace FirmwareUpdate

/-- The figures of a progress report. -/
structure Throughput where
  /-- The bytes the peer says it sent, or the length of the completed transfer. -/
  expected : UInt32
  /-- The distance of the cursor from the start of the transfer. -/
  progress : UInt32
  /-- The payload bytes taken, resent ones included. -/
  bytes : UInt32
  elapsedMs : UInt64
deriving DecidableEq, Repr

/-- Bytes taken in a second, rounded down to a whole number and cut to 32 bits. No time, no rate. -/
def Throughput.bytesPerSecond (t : Throughput) : UInt32 :=
  if t.elapsedMs = 0 then 0 else (t.bytes.toUInt64 * 1000 / t.elapsedMs).toUInt32

end FirmwareUpdate
