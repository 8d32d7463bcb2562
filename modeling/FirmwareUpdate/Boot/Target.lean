import FirmwareUpdate.Boot.Record
import FirmwareUpdate.Layout

/-!
# What to boot

At reset the bootloader either starts the application or stays to receive an update. It stays if
the application asked for an update or if no confirmed image is there.
-/

namespace FirmwareUpdate

/-- The bytes that the application leaves in memory to ask for an update. -/
abbrev UpdateRequest := Vector UInt8 Layout.updateRequestSize

namespace UpdateRequest

def key : UpdateRequest :=
  #v[0xce, 0x8d, 0xc1, 0x1f, 0x37, 0x7b, 0xb1, 0x9a, 0x79, 0xf5, 0xe1, 0x44, 0x8c, 0xc9, 0xad, 0x57]

/-- Whether the application asked for an update. Memory is undefined after power was applied, so
what it holds then never counts. -/
def honoured (powerOn : Bool) (retained : UpdateRequest) : Bool :=
  !powerOn && decide (retained = key)

end UpdateRequest

/-- What the bootloader does after a reset. -/
inductive BootTarget where
  /-- Starts the application that this record describes. -/
  | application (record : BootRecord)
  /-- Stays to receive an update. -/
  | update
deriving DecidableEq, Repr

/-- Starts the application only if its record is confirmed and no update was asked for. -/
def BootTarget.select (record : Option BootRecord) (requested : Bool) : BootTarget :=
  match record with
  | some record =>
    if !requested && decide (record.kind = .confirmed) then .application record else .update
  | none => .update

end FirmwareUpdate
