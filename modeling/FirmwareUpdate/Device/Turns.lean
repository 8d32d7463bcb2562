import FirmwareUpdate.Device.Transcript
import FirmwareUpdate.Flash.Memory

/-!
# Taking turns

The device played against a script. Updater and radio take turns: the updater handles all that is
queued, then the radio takes from the script until it gives way.
-/

namespace FirmwareUpdate.Device

structure ScriptLine where
  happening : UpdateMode.Happening
  /-- Whether the radio takes the next line in the same turn. -/
  more : Bool := false
deriving DecidableEq, Repr

namespace UpdateMode

variable {σ : Type}

/-- The updater handles everything that is queued. Handling an item queues no other. -/
def serveAll (config : Config) (chip : NorFlash σ) (m : UpdateMode σ) : UpdateMode σ :=
  m.queue.toList.foldl (fun m _ => m.serve config chip) m

/-- The radio gives way until it can take a line again: a radio that has lost its peer tells the
updater first, and once it advertises lets everything be handled. -/
def giveWay (config : Config) (chip : NorFlash σ) (m : UpdateMode σ) : UpdateMode σ :=
  ((m.serveAll config chip).reopen).serveAll config chip

/-- Whether the radio keeps its turn after a line. A new peer is served at once, and a lost one is
always announced before anything else. -/
def keepsTurn (m : UpdateMode σ) (line : ScriptLine) : Bool :=
  match m.radio, line.happening with
  | .advertising, .connect => true
  | .connected _, .disconnect => false
  | .connected _, _ => line.more
  | _, _ => false

/-- What showed since the log was last cleared. -/
def entries (m : UpdateMode σ) : List Entry := m.log.toList.filterMap Occurrence.entry?

/-- Plays a script: what showed after each line taken, and the device at the end. The last line
always ends the turn. -/
def play (config : Config) (chip : NorFlash σ) (m : UpdateMode σ) :
    List ScriptLine → List (List Entry) × UpdateMode σ
  | [] => ([], m)
  | line :: lines =>
    let keeps := m.keepsTurn line && !lines.isEmpty
    let taken := m.take line.happening
    let m := if keeps then taken else taken.giveWay config chip
    if m.stopped.isSome then
      ([m.entries], m)
    else
      let (steps, last) := play config chip { m with log := #[] } lines
      (m.entries :: steps, last)

end UpdateMode

inductive Ending where
  | jump
  | reset
  /-- The device could not advertise. -/
  | panic
  /-- The script was over in update mode. -/
  | update
deriving DecidableEq, Repr

/-- A run of the device from reset on. -/
structure Run where
  /-- What showed before the first line of the script was taken. -/
  start : List Entry
  /-- What showed after each line taken. -/
  steps : List (List Entry)
  ending : Ending
  retained : UpdateRequest
  flash : FlashMemory

/-- The flash of the device without content: from the start of the application to its end. -/
def blankFlash : FlashMemory :=
  .erased Layout.appBase.toNat (Layout.flashEnd.toNat - Layout.appBase.toNat)

def chip : NorFlash FlashMemory := FlashMemory.chip Layout.pageSize

/-- Update mode from its start on, against a script. -/
def runUpdate (config : Config) (flash : FlashMemory) (script : List ScriptLine) :
    List Entry × List (List Entry) × UpdateMode FlashMemory :=
  let m : UpdateMode FlashMemory := { flash }
  let started := m.record .advertised
  let (steps, last) := { started with log := #[] }.play config chip script
  (started.entries, steps, last)

/-- Runs the device from a reset on, with the key of the image, the flash content and a script. -/
def run (state : ResetState) (key : Aes256.Key) (flash : FlashMemory) (script : List ScriptLine) :
    Run :=
  let record := flash.peek Layout.appBase.toNat BootRecord.byteSize
  let (target, left) := boot state record
  let started := (startup state record).flatMap StartupStep.entries
  match target with
  | .application _ =>
    { start := started
      steps := []
      ending := .jump
      retained := left.retained
      flash }
  | .update =>
    let (advertised, steps, last) := runUpdate { key } flash script
    { start := started ++ advertised
      steps
      ending :=
        match last.stopped with
        | some .reset => .reset
        | some .panic => .panic
        | none => .update
      retained := left.retained
      flash := last.flash }

end FirmwareUpdate.Device
