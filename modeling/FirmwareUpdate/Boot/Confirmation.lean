import FirmwareUpdate.Board
import FirmwareUpdate.Boot.Record

/-!
# Confirming an image

The tag of a provisional record is programmed over with the confirmed one and read back. Nothing
else is ever written here, and an image that is confirmed already is left alone.
-/

namespace FirmwareUpdate

/-- How an image came to be confirmed. -/
inductive Confirmation where
  /-- Its tag was changed just now. -/
  | confirmed
  /-- It was confirmed before. -/
  | alreadyConfirmed
deriving DecidableEq, Repr

namespace Confirmation

variable {σ : Type}

def readWord (chip : NorFlash σ) (address : UInt32) : Attempt (Board σ) UInt32 := do
  let bytes ← Board.read chip address 4
  pure (UInt32.ofNat (LittleEndian.value bytes.toList))

/-- Programs the confirmed tag and reads it back. -/
def program (chip : NorFlash σ) (address : UInt32) : Attempt (Board σ) Confirmation := do
  Board.write chip address (LittleEndian.encode32 RecordTag.confirmedWord)
  let tag ← readWord chip address
  Attempt.refuseIf (tag ≠ RecordTag.confirmedWord) (.bootRecord tag)
  pure confirmed

/-- Confirms the image whose record is at an address. -/
def run (chip : NorFlash σ) (record : UInt32) : Attempt (Board σ) Confirmation := do
  let address := record + BootRecord.tagOffset
  let tag ← readWord chip address
  if tag = RecordTag.confirmedWord then
    pure alreadyConfirmed
  else if tag = RecordTag.provisionalWord then
    program chip address
  else
    throw (.bootRecord tag)

end Confirmation

end FirmwareUpdate
