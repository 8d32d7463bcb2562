import FirmwareUpdate.Bytes.LittleEndian
import FirmwareUpdate.Wire.PacketError

/-!
# Payload packets

A payload packet is the four-byte little-endian address of its first payload byte, followed by the
payload. A packet without payload can be written but is refused when read.
-/

namespace FirmwareUpdate

/-- A piece of the image with the address of its first byte. -/
structure PayloadPacket where
  address : UInt32
  payload : Bytes
deriving DecidableEq, Repr

namespace PayloadPacket

/-- The length of the address that leads the packet. -/
def addressSize : Nat := 4

def encode (p : PayloadPacket) : Bytes := LittleEndian.encode32 p.address ++ p.payload

/-- Writes the packet over the front of a buffer. Gives the number of bytes used and the buffer
afterwards; a buffer that is too small stays as it is. -/
def writeTo (p : PayloadPacket) (buffer : Bytes) : Except PacketError Nat × Bytes :=
  if buffer.length < addressSize + p.payload.length then
    (.error .bufferTooSmall, buffer)
  else
    (.ok (addressSize + p.payload.length),
      p.encode ++ buffer.drop (addressSize + p.payload.length))

/-- Splits a packet into its address and a payload of at least one byte. -/
def decode : Bytes → Except PacketError PayloadPacket
  | a₀ :: a₁ :: a₂ :: a₃ :: b :: rest =>
    .ok { address := LittleEndian.decode32 a₀ a₁ a₂ a₃, payload := b :: rest }
  | packet => .error (.tooShort (addressSize + 1) packet.length)

end PayloadPacket

end FirmwareUpdate
