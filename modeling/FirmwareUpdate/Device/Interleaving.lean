import FirmwareUpdate.Device.UpdateMode

/-!
# Interleaving

While the updater waits for flash the radio goes on, so the moves of the radio fall between any two
things that the updater does about an item. Engine and flash are in the updater's hands alone: what
it will do is settled when it takes the item, and is then done deed by deed. `UpdateMode.serve` is
the case in which the radio keeps still meanwhile.
-/

namespace FirmwareUpdate.Device

variable {σ : Type}

/-- Something that the updater does about an item. -/
inductive Deed where
  /-- Passes on what the engine did outside itself. -/
  | relay (event : Event)
  /-- Tells the peer whether a packet was accepted. -/
  | acknowledge (c : Characteristic) (accepted : Bool)
  | reset
deriving DecidableEq, Repr

namespace UpdateMode

def perform (m : UpdateMode σ) : Deed → UpdateMode σ
  | .relay event => m.relay event
  | .acknowledge c accepted => m.notify c (acknowledgement accepted)
  | .reset => m.stop .reset

/-- How a packet is answered: a control packet always, a data packet only if it was rejected. -/
def acknowledgements : Packet → Bool → List Deed
  | .control _, accepted => [.acknowledge .control accepted]
  | .data _, accepted => if accepted then [] else [.acknowledge .data false]

/-- What an item asks of the updater, and the device once the engine has worked on it. -/
def undertake (config : Config) (chip : NorFlash σ) (now : UInt64) (m : UpdateMode σ) :
    Work → List Deed × UpdateMode σ
  | .packet packet =>
    match Engine.receive config chip now packet (m.engine, { flash := m.flash }) with
    | .ok _ (engine, board) =>
      (board.events.toList.map .relay ++ acknowledgements packet true,
        { m with engine, flash := board.flash })
    | .error _ (engine, board) =>
      (board.events.toList.map .relay ++ acknowledgements packet false,
        { m with engine, flash := board.flash })
  | .disconnected => (if m.engine.resetRequested then [.reset] else [], m)

end UpdateMode

/-- A device in update mode whose updater may be busy with an item. -/
structure Interleaved (σ : Type) where
  mode : UpdateMode σ
  /-- What the updater has yet to do about the item it took last. -/
  pending : List Deed := []

namespace Interleaved

/-- A device that begins to advertise. -/
def start (flash : σ) : Interleaved σ :=
  { mode := UpdateMode.record { flash } .advertised }

/-- The updater does the next deed. With nothing left to do it takes the oldest item of the queue,
and `now` is what the engine finds the clock to show while it works on it. -/
def advance (config : Config) (chip : NorFlash σ) (now : UInt64) (s : Interleaved σ) :
    Interleaved σ :=
  match s.mode.stopped, s.pending with
  | some _, _ => s
  | none, deed :: deeds => { mode := s.mode.perform deed, pending := deeds }
  | none, [] =>
    match s.mode.queue.pop? with
    | none => s
    | some (work, queue) =>
      let begun := ({ s.mode with queue }.record (.taken work)).undertake config chip now work
      { mode := begun.2, pending := begun.1 }

inductive Move where
  | take (h : UpdateMode.Happening)
  /-- The radio tries again to tell the updater that its peer is gone. -/
  | reopen
  | advance (now : UInt64)
deriving DecidableEq, Repr

def move (config : Config) (chip : NorFlash σ) (s : Interleaved σ) : Move → Interleaved σ
  | .take h => { s with mode := s.mode.take h }
  | .reopen => { s with mode := s.mode.reopen }
  | .advance now => s.advance config chip now

/-- What stands once moves have been made one after another. -/
def run (config : Config) (chip : NorFlash σ) (s : Interleaved σ) (moves : List Move) :
    Interleaved σ :=
  moves.foldl (move config chip) s

end Interleaved

end FirmwareUpdate.Device
