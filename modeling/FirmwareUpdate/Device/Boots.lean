import FirmwareUpdate.Device.Turns

/-!
# One boot after another

Between two boots a program runs, which may write over the bytes of an update request, and then the
device is reset. The register gathers reasons until a boot clears them; memory is lost with the power
alone.
-/

namespace FirmwareUpdate.Device

inductive Reset where
  /-- Power was applied: there is no reason, and memory holds anything. -/
  | powerOn (memory : UpdateRequest)
  /-- Any other reset adds its reasons to the register. -/
  | warm (reasons : UInt32)
deriving DecidableEq

/-- What leads from one boot to the next, and what the device meets with then. -/
structure Cycle where
  /-- What the bytes of the request were written over with, if they were. -/
  stored : Option UpdateRequest := none
  reset : Reset
  flash : FlashMemory
  script : List ScriptLine := []

/-- What a boot found, and how the device ran from there. -/
structure Boot where
  found : ResetState
  run : Run

namespace ResetState

def store (s : ResetState) (stored : Option UpdateRequest) : ResetState :=
  { s with retained := stored.getD s.retained }

def afterReset (s : ResetState) : Reset → ResetState
  | .powerOn memory => ⟨0, memory⟩
  | .warm reasons => { s with reason := s.reason ||| reasons }

/-- What the boot of a cycle finds. -/
def next (s : ResetState) (c : Cycle) : ResetState := (s.store c.stored).afterReset c.reset

/-- What the boot of a cycle leaves. -/
def left (s : ResetState) (c : Cycle) : ResetState :=
  (boot (s.next c) (c.flash.peek Layout.appBase.toNat BootRecord.byteSize)).2

end ResetState

/-- The boots of a device, first to last, from what was there before the first cycle. -/
def boots (key : Aes256.Key) (s : ResetState) : List Cycle → List Boot
  | [] => []
  | c :: cs => ⟨s.next c, run (s.next c) key c.flash c.script⟩ :: boots key (s.left c) cs

/-- The boot stays in update mode because the application asked for it. -/
def Boot.Honours (b : Boot) : Prop :=
  UpdateRequest.honoured b.found.powerOn b.found.retained = true

instance (b : Boot) : Decidable b.Honours := inferInstanceAs (Decidable (_ = true))

end FirmwareUpdate.Device
