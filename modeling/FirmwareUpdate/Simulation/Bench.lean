import FirmwareUpdate.Boot.Target
import FirmwareUpdate.Engine.Reception
import FirmwareUpdate.Flash.Memory

/-!
# A bench for the engine

An engine on flash in memory, with a clock that is set by hand. Actions are what a peer, a
technician with access to the flash, or the power supply can do.
-/

namespace FirmwareUpdate

/-- An engine at work on flash in memory. -/
structure Bench (page : Nat) where
  config : Config
  eraseSize : Nat := page
  engine : Engine page := {}
  flash : FlashMemory
  /-- The clock, in milliseconds. -/
  clock : UInt64 := 0

/-- Something done to a bench. -/
inductive Action where
  | packet (packet : Packet)
  | setClock (ms : UInt64)
  /-- The link refuses requests for connection parameters, or grants them again. -/
  | refuseParameters (refuse : Bool)
  | poke (address : Nat) (bytes : Bytes)
  | addFault (fault : Fault)
  | clearFaults
  /-- Power is lost and comes back. -/
  | powerCycle
  | peek (address length : Nat)
  /-- A boot record is confirmed beside the engine. -/
  | confirm (record : UInt32)
  /-- A range is hashed beside the engine. -/
  | digest (address size : UInt32)
  | select (address : Nat) (requested : Bool)

/-- What an action answers. -/
inductive Answer where
  | accepted
  /-- The packet, or what was asked for, was rejected. -/
  | rejected (error : UpdateError)
  | changed
  | bytes (bytes : Bytes)
  | confirmation (outcome : Confirmation)
  | target (target : BootTarget)

namespace Bench

variable {page : Nat}

def chip (b : Bench page) : NorFlash FlashMemory := FlashMemory.chip b.eraseSize

def engineStep (b : Bench page) (step : Engine.Step page FlashMemory Unit) :
    Answer × Array Event × Bench page :=
  match step (b.engine, { flash := b.flash }) with
  | .ok _ (engine, board) => (.accepted, board.events, { b with engine, flash := board.flash })
  | .error e (engine, board) => (.rejected e, board.events, { b with engine, flash := board.flash })

/-- Takes a step on the flash, beside the engine. -/
def flashStep {α : Type} (b : Bench page) (answer : α → Answer)
    (step : Attempt (Board FlashMemory) α) : Answer × Array Event × Bench page :=
  match step { flash := b.flash } with
  | .ok a board => (answer a, board.events, { b with flash := board.flash })
  | .error e board => (.rejected e, board.events, { b with flash := board.flash })

/-- Does something to the bench: gives the answer, what the engine did outside itself, and the
bench afterwards. Refused connection parameters change nothing, since the engine only asks for
them. -/
def perform (b : Bench page) : Action → Answer × Array Event × Bench page
  | .packet packet => b.engineStep (Engine.receive b.config b.chip b.clock packet)
  | .setClock ms => (.changed, #[], { b with clock := ms })
  | .refuseParameters _ => (.changed, #[], b)
  | .poke address bytes => (.changed, #[], { b with flash := b.flash.poke address bytes })
  | .addFault fault =>
    (.changed, #[], { b with flash := { b.flash with faults := b.flash.faults ++ [fault] } })
  | .clearFaults => (.changed, #[], { b with flash := { b.flash with faults := [] } })
  | .powerCycle => (.changed, #[], { b with engine := {} })
  | .peek address length => (.bytes (b.flash.peek address length), #[], b)
  | .confirm record => b.flashStep .confirmation (Confirmation.run b.chip record)
  | .digest address size =>
    b.flashStep (fun d => .bytes d.toList) (Region.digest b.chip address size)
  | .select address requested =>
    let record := BootRecord.parse? (b.flash.peek address BootRecord.byteSize)
    (.target (BootTarget.select record requested), #[], b)

end Bench

end FirmwareUpdate
