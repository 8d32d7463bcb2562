import FirmwareUpdate.Connection
import FirmwareUpdate.Throughput
import FirmwareUpdate.UpdateError
import FirmwareUpdate.Wire.Progress

/-!
# The board

What the engine reaches outside itself: a flash chip, and a link on which it only speaks. Every
flash call and every message is recorded in the order it happened.

An `Attempt` works on a state and may be refused with an `UpdateError`; what it did before the
refusal stays done.
-/

namespace FirmwareUpdate

/-- A step on states of type `s` that may be refused. A refusal keeps the state reached. -/
abbrev Attempt (s α : Type) := EStateM UpdateError s α

/-- Something the engine did outside itself. -/
inductive Event where
  /-- A flash call, and why it failed if it did. -/
  | flash (call : FlashCall) (failure : Option FlashError)
  | progress (notice : Progress)
  | connection (parameters : Connection.Parameters)
  | report (figures : Throughput)
deriving DecidableEq, Repr

/-- A flash chip with state `σ`, and what was done so far. -/
structure Board (σ : Type) where
  flash : σ
  /-- What was done, first to last. -/
  events : Array Event := #[]

variable {σ τ α : Type}

namespace Board

/-- Makes a flash call and records it. -/
def call (record : FlashCall) (attempt : EStateM FlashError σ α) : Attempt (Board σ) α :=
  fun ⟨flash, events⟩ =>
    match attempt flash with
    | .ok a flash => .ok a ⟨flash, events.push (.flash record none)⟩
    | .error e flash => .error (.flash e) ⟨flash, events.push (.flash record (some e))⟩

def read (chip : NorFlash σ) (address : UInt32) (length : Nat) :
    Attempt (Board σ) (Vector UInt8 length) :=
  call (.read address length) (chip.read address length)

def erase (chip : NorFlash σ) (start stop : UInt32) : Attempt (Board σ) Unit :=
  call (.erase start stop) (chip.erase start stop)

def write (chip : NorFlash σ) (address : UInt32) (bytes : Bytes) : Attempt (Board σ) Unit :=
  call (.write address bytes) (chip.write address bytes)

/-- Records a message. The link takes every message and answers none. -/
def emit (event : Event) : Attempt (Board σ) Unit :=
  fun ⟨flash, events⟩ => .ok () ⟨flash, events.push event⟩

end Board

namespace Attempt

/-- Refuses with an error if a condition holds. -/
def refuseIf {s : Type} (condition : Prop) [Decidable condition] (error : UpdateError) :
    Attempt s Unit :=
  if condition then throw error else pure ()

/-- Takes the value of a result, or refuses with its error. -/
def ofPacket {s : Type} : Except PacketError α → Attempt s α
  | .ok a => pure a
  | .error e => throw (.malformed e)

/-- A step on the board, taken beside a state that it leaves alone. -/
def onBoard (attempt : Attempt (Board σ) α) : Attempt (τ × Board σ) α :=
  fun (t, board) =>
    match attempt board with
    | .ok a board => .ok a (t, board)
    | .error e board => .error e (t, board)

end Attempt

end FirmwareUpdate
