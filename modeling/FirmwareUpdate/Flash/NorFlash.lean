import FirmwareUpdate.Bytes.LittleEndian

/-!
# NOR flash

`NorFlash σ` is a flash chip as its driver offers it: erase whole units, program bytes, read bytes.
The chip's state, of type `σ`, is threaded through every call, so a chip may answer a call in any
way that its past allows: carry it out, refuse it, or report a success that did not happen.
-/

namespace FirmwareUpdate

inductive FlashError where
  /-- The address or the length is not a whole number of the units the call works in. -/
  | notAligned
  /-- The range does not lie inside the chip. -/
  | outOfBounds
  | other
deriving DecidableEq, Repr

def FlashError.message : FlashError → String
  | notAligned => "not aligned"
  | outOfBounds => "out of bounds"
  | other => "driver error"

/-- A flash chip with state `σ`. -/
structure NorFlash (σ : Type) where
  eraseSize : Nat
  read : UInt32 → (length : Nat) → EStateM FlashError σ (Vector UInt8 length)
  /-- Erases from the first address up to, not including, the second. -/
  erase : UInt32 → UInt32 → EStateM FlashError σ Unit
  write : UInt32 → Bytes → EStateM FlashError σ Unit

inductive FlashCall where
  | read (address : UInt32) (length : Nat)
  | erase (start stop : UInt32)
  | write (address : UInt32) (bytes : Bytes)
deriving DecidableEq, Repr

end FirmwareUpdate
