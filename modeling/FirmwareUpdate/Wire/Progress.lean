import FirmwareUpdate.Bytes.LittleEndian
import FirmwareUpdate.Wire.PacketError

/-!
# Progress notices

A notice to the peer is five bytes: a code and a little-endian address.
-/

namespace FirmwareUpdate

/-- What the peer is told outside the answer to a packet. -/
inductive Progress where
  /-- A packet was missed; sending resumes at this address. -/
  | resync (address : UInt32)
  /-- The range that starts at this address does not have the expected digest. -/
  | digestFailed (address : UInt32)
deriving DecidableEq, Repr

namespace Progress

def size : Nat := 5

def code : Progress → UInt8
  | resync _ => 1
  | digestFailed _ => 2

def address : Progress → UInt32
  | resync address => address
  | digestFailed address => address

def encode (p : Progress) : Bytes := p.code :: LittleEndian.encode32 p.address

/-- Reads a notice. A wrong length is reported before an unknown code. -/
def decode : Bytes → Except PacketError Progress
  | [code, a₀, a₁, a₂, a₃] =>
    let address := LittleEndian.decode32 a₀ a₁ a₂ a₃
    if code = 1 then .ok (.resync address)
    else if code = 2 then .ok (.digestFailed address)
    else .error (.unknownProgress code)
  | packet => .error (.wrongLength size packet.length)

end Progress

end FirmwareUpdate
