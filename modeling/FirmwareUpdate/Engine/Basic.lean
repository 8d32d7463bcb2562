import FirmwareUpdate.Assembly
import FirmwareUpdate.Config
import FirmwareUpdate.Session

/-!
# The update engine

The engine holds a session and the unit under assembly. A step of it also works on the board, so
its states are pairs of an engine and a board.
-/

namespace FirmwareUpdate

/-- An update engine that buffers one erase unit of `page` bytes. -/
structure Engine (page : Nat) where
  session : Session := {}
  assembly : Assembly page := {}
  /-- Whether the device restarts once the connection is gone. A restarted session keeps this. -/
  resetRequested : Bool := false
  /-- Whether a fatal error was seen; nothing is accepted any more. -/
  halted : Bool := false
deriving DecidableEq

namespace Engine

variable {page : Nat} {σ α : Type}

/-- A step of the engine on its board. -/
abbrev Step (page : Nat) (σ α : Type) := Attempt (Engine page × Board σ) α

/-- A step of the unit under assembly. -/
def assemble (attempt : Attempt (Assembly page × Board σ) α) : Step page σ α :=
  fun (e, board) =>
    match attempt (e.assembly, board) with
    | .ok a (assembly, board) => .ok a ({ e with assembly }, board)
    | .error err (assembly, board) => .error err ({ e with assembly }, board)

def current : Step page σ (Engine page) := fun (e, board) => .ok e (e, board)

def update (f : Engine page → Engine page) : Step page σ Unit :=
  fun (e, board) => .ok () (f e, board)

def updateSession (f : Session → Session) : Step page σ Unit :=
  update fun e => { e with session := f e.session }

/-- Changes what is awaited. -/
def await (activity : Activity) : Step page σ Unit :=
  updateSession fun s => { s with activity }

def emit (event : Event) : Step page σ Unit := Attempt.onBoard (Board.emit event)

def report (now : UInt64) (expected : UInt32) : Step page σ Unit := do
  let e ← current
  emit (.report (e.session.throughput now expected))

/-- Refuses if something is awaited. -/
def requireIdle : Step page σ Unit := do
  let e ← current
  Attempt.refuseIf (e.session.activity ≠ .idle) .busy

end Engine

end FirmwareUpdate
