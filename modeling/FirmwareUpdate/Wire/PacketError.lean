import FirmwareUpdate.Text.Hexadecimal

/-!
# Malformed packets

Why a byte string is not a packet, and the sentence that says so.
-/

namespace FirmwareUpdate

/-- Why a packet could not be read or written. -/
inductive PacketError where
  | wrongLength (expected actual : Nat)
  /-- The packet lacks its first payload byte. -/
  | tooShort (minimum actual : Nat)
  | tooLong (maximum actual : Nat)
  | unknownCommand (code : UInt16)
  | unknownProgress (code : UInt8)
  | bufferTooSmall
deriving DecidableEq, Repr

/-- The sentence shown for a malformed packet. A command code has four hexadecimal digits. -/
def PacketError.message : PacketError → String
  | wrongLength expected actual => s!"packet should be {expected} bytes, but is {actual}"
  | tooShort minimum actual => s!"packet should be at least {minimum} bytes, but is {actual}"
  | tooLong maximum actual => s!"packet should be at most {maximum} bytes, but is {actual}"
  | unknownCommand code => "unknown command " ++ Hexadecimal.render 4 code.toNat
  | unknownProgress code => s!"unknown progress code {code.toNat}"
  | bufferTooSmall => "buffer too small for serialization"

end FirmwareUpdate
