import FirmwareUpdate.Flash.NorFlash
import FirmwareUpdate.Wire.PacketError

/-!
# Why a packet is rejected

One constructor for each cause, and the sentence that states it. Two causes are fatal: they mean
that the flash is not what the bootloader takes it for.
-/

namespace FirmwareUpdate

/-- Why the engine rejected a packet. -/
inductive UpdateError where
  | malformed (error : PacketError)
  /-- A transfer, a chaining vector or a digest is still awaited. -/
  | busy
  /-- The transfer would leave the application region. -/
  | outsideRegion (address length : UInt32)
  /-- The range named is empty, or the range of a digest starts at address zero. -/
  | emptyRange
  | chainVectorLength (expected actual : Nat)
  | digestLength (expected actual : Nat)
  /-- Nothing is awaited on the data channel. -/
  | noTransfer
  /-- The payload would run past the end of the transfer. -/
  | overrun (stop limit : UInt32)
  /-- The range is not a whole number of cipher blocks. -/
  | unaligned (address length : UInt32)
  /-- The range that starts here does not have the digest given. -/
  | digestMismatch (address : UInt32)
  /-- No digest matched since the last transfer began. -/
  | unverified
  /-- The boot record has neither of the tags an image may have. -/
  | bootRecord (tag : UInt32)
  /-- A fatal error came before. -/
  | halted
  /-- The chip erases in other units than the engine buffers. -/
  | eraseUnit (expected actual : Nat)
  | flash (error : FlashError)
deriving DecidableEq, Repr

namespace UpdateError

/-- Whether the error stops the engine for good. -/
def isFatal : UpdateError → Bool
  | bootRecord _ | eraseUnit _ _ => true
  | _ => false

/-- The sentence that states the error. A tag has eight hexadecimal digits, an address as few as
it needs. -/
def message : UpdateError → String
  | malformed error => s!"malformed packet: {error.message}"
  | busy => "previous command not complete"
  | outsideRegion address length =>
    s!"{length.toNat} bytes at {hex address} fall outside the application region"
  | emptyRange => "command without data block"
  | chainVectorLength expected actual =>
    s!"chaining vector should be {expected} bytes, got {actual}"
  | digestLength expected actual => s!"digest should be {expected} bytes, got {actual}"
  | noTransfer => "no data transfer in progress"
  | overrun stop limit => s!"payload ends at {hex stop}, transfer ends at {hex limit}"
  | unaligned address length =>
    s!"transfer of {length.toNat} bytes at {hex address} is not block aligned"
  | digestMismatch address => s!"digest mismatch for block at {hex address}"
  | unverified => "image not verified"
  | bootRecord tag => "unexpected boot record tag " ++ Hexadecimal.render 8 tag.toNat
  | halted => "update halted after a fatal error"
  | eraseUnit expected actual => s!"erase unit is {actual} bytes, buffer is {expected}"
  | flash error => s!"flash error: {error.message}"
where
  hex (address : UInt32) : String := Hexadecimal.render 1 address.toNat

end UpdateError

end FirmwareUpdate
