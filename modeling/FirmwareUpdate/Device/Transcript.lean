import FirmwareUpdate.Device.Startup
import FirmwareUpdate.Device.UpdateMode

/-!
# Transcripts

What someone sees who watches the registers, the radio and the flash of the device: an `Entry` for
each thing that shows. Not everything that happens inside does.
-/

namespace FirmwareUpdate.Device

/-- Something that shows on the outside of the device. -/
inductive Entry where
  | resetReason (written : UInt32)
  | initRadio (vectorTable : UInt32)
  | vectorTable (address : UInt32)
  | forwardInterrupts (address : UInt32)
  /-- The application was entered. -/
  | jump (link stack entry : UInt32)
  | interruptPriorities (pins timer : Nat)
  | enableRadio (settings : RadioSettings)
  | service (uuid : Uuid)
  | characteristic (c : Characteristic)
  | startRadioTask
  | advertise (advertisement : Advertisement)
  | refused
  | notify (c : Characteristic) (value : Bytes)
  | connectionParameters (parameters : Connection.Parameters)
  | erase (start stop : UInt32)
  | write (address : UInt32) (bytes : Bytes)
deriving DecidableEq, Repr

/-- What shows of something that happened. -/
def Occurrence.entry? : Occurrence → Option Entry
  | .advertised => some (.advertise advertisement)
  | .refused => some .refused
  | .flash (.erase start stop) none => some (.erase start stop)
  | .flash (.write address bytes) none => some (.write address bytes)
  | .notified c value true => some (.notify c value)
  | .requested parameters true => some (.connectionParameters parameters)
  | _ => none

/-- Where the radio stack wants interrupts to go. -/
def radioVectorTable : UInt32 := 0x1000

/-- The link register of an application that must not return. -/
def noReturn : UInt32 := 0xffffffff

/-- What shows when the application is started. -/
def jumpEntries (r : BootRecord) : List Entry :=
  [.initRadio r.vectorTable, .vectorTable r.vectorTable, .forwardInterrupts radioVectorTable,
    .jump noReturn r.stackTop r.resetVector]

/-- What shows when update mode is entered, before advertising starts. -/
def updateEntries : List Entry :=
  [.interruptPriorities 2 2, .enableRadio {}, .service serviceUuid] ++
    Characteristic.all.map .characteristic ++ [.startRadioTask]

/-- What shows of a step of the startup. Memory does not show. -/
def StartupStep.entries : StartupStep → List Entry
  | .clearReason written => [.resetReason written]
  | .scrub => []
  | .enter (.application record) => jumpEntries record
  | .enter .update => updateEntries

end FirmwareUpdate.Device
