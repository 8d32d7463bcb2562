import FirmwareUpdate.Bytes.LittleEndian
import FirmwareUpdate.Wire.Command
import FirmwareUpdate.Wire.PacketError

/-!
# Control packets

A control packet is eight bytes: the command code and a length in two bytes each, then an address
in four, all little-endian.
-/

namespace FirmwareUpdate

/-- A command with the length and the address that go with it. -/
structure ControlPacket where
  command : Command
  length : UInt16 := 0
  address : UInt32 := 0
deriving DecidableEq, Repr

namespace ControlPacket

def size : Nat := 8

def encode (p : ControlPacket) : Bytes :=
  LittleEndian.encode16 p.command.code ++ LittleEndian.encode16 p.length ++
    LittleEndian.encode32 p.address

/-- Reads a packet. A wrong length is reported before an unknown command. -/
def decode : Bytes → Except PacketError ControlPacket
  | [c₀, c₁, l₀, l₁, a₀, a₁, a₂, a₃] =>
    let code := LittleEndian.decode16 c₀ c₁
    match Command.ofCode? code with
    | some command =>
      .ok
        { command
          length := LittleEndian.decode16 l₀ l₁
          address := LittleEndian.decode32 a₀ a₁ a₂ a₃ }
    | none => .error (.unknownCommand code)
  | packet => .error (.wrongLength size packet.length)

end ControlPacket

end FirmwareUpdate
