/-!
# The connection to the peer

Sizes of what travels over the connection, and the timing that the bootloader asks for.
-/

namespace FirmwareUpdate

namespace Connection

/-- The largest unit the radio carries. -/
def attMtu : Nat := 247

/-- The largest value the peer can write in one packet: three bytes of the unit are its header. -/
def maxPacketSize : Nat := attMtu - 3

/-- The payload that the peer usually puts into a packet. -/
def usualPayloadSize : Nat := 64

structure Parameters where
  /-- The shortest interval, in units of 1.25 ms. -/
  minInterval : UInt16 := 8
  /-- The longest interval, in units of 1.25 ms. -/
  maxInterval : UInt16 := 12
  latency : UInt16 := 0
  /-- The silence after which the connection counts as lost, in units of 10 ms. -/
  supervisionTimeout : UInt16 := 500
deriving DecidableEq, Repr

end Connection

end FirmwareUpdate
