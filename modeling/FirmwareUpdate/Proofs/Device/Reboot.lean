import FirmwareUpdate.Device.Turns
import FirmwareUpdate.Proofs.Device.Interleaving
import FirmwareUpdate.Proofs.Engine.Confirmed
import FirmwareUpdate.Proofs.Engine.Reset

/-!
# From an accepted `done` to the next boot

A device that was asked to reset does so when it handles the end of a connection. If it accepted
`done`, and no transfer since, the next boot starts the application: the record is confirmed, and the
memory in which the application asks for an update was overwritten at the boot before.
-/

namespace FirmwareUpdate.Device

variable {σ : Type} {config : Config} {chip : NorFlash σ} {view : NorFlash.View σ}

/-- After a boot no update is asked for until the application does so again. -/
theorem not_honoured_consumed (powerOn : Bool) (state : ResetState) :
    UpdateRequest.honoured powerOn state.consumed.retained = false := by
  have hscrubbed : state.consumed.retained ≠ UpdateRequest.key := by
    change Vector.replicate _ 1 ≠ UpdateRequest.key
    decide
  simp [UpdateRequest.honoured, hscrubbed]

/-- The boot after another one goes by the record alone. -/
theorem bootTarget_consumed (reason : UInt32) (state : ResetState) (bytes : Bytes) :
    bootTarget ⟨reason, state.consumed.retained⟩ bytes =
      BootTarget.select (BootRecord.parse? bytes) false := by
  rw [bootTarget, not_honoured_consumed]

/-- A boot that decides for an application enters it and does nothing else. -/
theorem run_of_application {state : ResetState} {flash : FlashMemory} {record : BootRecord}
    (h : bootTarget state (flash.peek Layout.appBase.toNat BootRecord.byteSize) = .application record)
    (key : Aes256.Key) (script : List ScriptLine) :
    (run state key flash script).ending = .jump ∧
      (run state key flash script).start = .resetReason state.reason :: jumpEntries record := by
  simp [run, boot, startup, h, StartupStep.entries]

namespace Interleaved

variable {s : Interleaved σ} {flash : σ}

/-- A device that was asked to reset does so at the end of a connection. -/
theorem reset_of_disconnected (hreset : s.mode.engine.resetRequested = true)
    (hrunning : s.mode.stopped = none) (hready : s.pending = []) {rest : List Work}
    (hqueue : s.mode.queue.toList = .disconnected :: rest) (now now' : UInt64) :
    let s' := (s.advance config chip now).advance config chip now'
    s'.mode.stopped = some .reset ∧ s'.mode.flash = s.mode.flash := by
  have hroom : rest.length ≤ queueCapacity := by
    have hlength := s.mode.queue.length_le
    rw [hqueue, List.length_cons] at hlength
    omega
  have hpop : s.mode.queue.pop? = some (.disconnected, ⟨rest, hroom⟩) :=
    BoundedQueue.pop?_eq_some_iff.mpr hqueue
  simp [advance, hrunning, hready, hpop, UpdateMode.undertake, UpdateMode.record, hreset,
    UpdateMode.perform, UpdateMode.stop]

/-- A device that accepted `done`, and no transfer since, keeps the flash that `done` left. -/
theorem content_of_done (confined : chip.Confined view) (sound : view.Sound flash)
    {moves : List Move} {earlier later : List (Exchange Layout.pageSize σ)}
    {x : Exchange Layout.pageSize σ}
    (hhandled : handled config chip flash moves = earlier ++ x :: later)
    (hdone : x.Accepts .done) (hdata : ∀ y ∈ later, ¬y.Accepts .data) :
    ∃ s : Snapshot Layout.pageSize σ, s.Reachable config chip view ∧
      (∃ a, x = s.exchange config chip a) ∧
        view.content ((start flash).run config chip moves).mode.flash =
          view.content x.after.flash := by
  obtain ⟨past, a, rest, hcalls, _, rfl, rfl⟩ := Snapshot.exchanges_eq_append_cons hhandled
  have hs : ((⟨{}, flash⟩ : Snapshot Layout.pageSize σ).run config chip past).Reachable config chip
      view := ⟨flash, past, sound, rfl⟩
  refine ⟨_, hs, ⟨a, rfl⟩, ?_⟩
  have hrefines : Refines config chip flash _ ((start flash).run config chip moves) :=
    refines_run moves
  have hflash := congrArg Snapshot.flash hrefines.snapshot
  rw [hcalls, Snapshot.run_append] at hflash
  obtain ⟨_, _, htag, _⟩ := Snapshot.exchange_done_accepted confined (hs.sound confined) hdone
  have hsettled := Snapshot.settled_of_done confined hs hdone
  exact (congrArg view.content hflash).trans
    (hsettled.run confined.toTruthful htag hdata).1

/-- A device that accepted a `reset` was asked to reset. -/
theorem resetRequested_of_handled {moves : List Move}
    (hreset : ∃ x ∈ handled config chip flash moves, x.Accepts .reset) :
    ((start flash).run config chip moves).mode.engine.resetRequested = true := by
  have hrefines : Refines config chip flash _ ((start flash).run config chip moves) :=
    refines_run moves
  have hengine := congrArg Snapshot.engine hrefines.snapshot
  exact (congrArg Engine.resetRequested hengine).trans
    ((Snapshot.run_resetRequested _).mpr (Or.inr hreset))

end Interleaved

/-- An accepted `done` leaves a record that starts the application if no update is asked for: the
record that was there, with the confirmed tag; all other bytes are as they were. It stays so until a
transfer is accepted. Hence a device that accepted `done` and `reset`, and no transfer after `done`,
resets at the end of the connection, and the boot that follows jumps into the application that the
record describes, whatever the device was told before it entered update mode. -/
theorem done_starts_application (chip : NorFlash σ) (view : NorFlash.View σ)
    (confined : chip.Confined view) :
    (∀ {page : Nat} (config : Config) (s : Snapshot page σ) (a : Arrival),
      s.Reachable config chip view →
      config.appBase.toNat + BootRecord.byteSize ≤ UInt32.size →
      (s.exchange config chip a).Accepts .done →
      let base := config.appBase.toNat
      let before := view.content s.flash
      let after := view.content (s.exchange config chip a).after.flash
      (∃ record, config.record? before = some record ∧
        BootTarget.select (config.record? after) false =
          .application { record with tag := RecordTag.confirmedWord }) ∧
      (∀ x, x < base + 16 ∨ base + 16 + 4 ≤ x → after x = before x) ∧
      ∀ as, (∀ y ∈ (s.exchange config chip a).after.exchanges config chip as, ¬y.Accepts .data) →
        view.content ((s.exchange config chip a).after.run config chip as).flash = after ∧
        ∀ y ∈ (s.exchange config chip a).after.exchanges config chip as, ¬y.Erases ∧ ¬y.Writes) ∧
    ∀ (key : Aes256.Key) (flash : σ), view.Sound flash →
      ∀ (moves : List Interleaved.Move) (earlier later : List (Exchange Layout.pageSize σ))
        (x : Exchange Layout.pageSize σ) (now now' : UInt64) (state : ResetState) (reason : UInt32),
      let config : Config := { key }
      let s := (Interleaved.start flash).run config chip moves
      Interleaved.handled config chip flash moves = earlier ++ x :: later →
      x.Accepts .done → (∀ y ∈ later, ¬y.Accepts .data) →
      (∃ y ∈ earlier ++ x :: later, y.Accepts .reset) →
      s.mode.stopped = none → s.pending = [] → s.mode.queue.toList.head? = some .disconnected →
      let stopped := ((s.advance config chip now).advance config chip now').mode
      stopped.stopped = some .reset ∧
      ∃ record, config.record? (view.content x.before.flash) = some record ∧
        (boot ⟨reason, state.consumed.retained⟩ ((view.content stopped.flash).peek
          Layout.appBase.toNat BootRecord.byteSize)).1 =
            .application { record with tag := RecordTag.confirmedWord } ∧
        ∀ (memory : FlashMemory) (key' : Aes256.Key) (script : List ScriptLine),
          memory.peek Layout.appBase.toNat BootRecord.byteSize =
            (view.content stopped.flash).peek Layout.appBase.toNat BootRecord.byteSize →
          let next := run ⟨reason, state.consumed.retained⟩ key' memory script
          next.ending = .jump ∧
            next.start =
              [.resetReason reason, .initRadio record.vectorTable, .vectorTable record.vectorTable,
                .forwardInterrupts radioVectorTable,
                .jump noReturn record.stackTop record.resetVector] := by
  constructor
  · intro page config s a hs hcovers hdone base before after
    obtain ⟨_, _, htag, houtside⟩ := Snapshot.exchange_done_accepted confined (hs.sound confined) hdone
    obtain ⟨record, hbefore, hafter⟩ := Snapshot.exchange_done_record confined hs hcovers hdone
    have hsettled := Snapshot.settled_of_done confined hs hdone
    refine ⟨⟨record, hbefore, ?_⟩, ?_, fun as => hsettled.run confined.toTruthful htag⟩
    · rw [hafter]
      exact BootTarget.select_confirmed record
    · rw [Config.toNat_tagAddress hcovers] at houtside
      exact houtside
  · intro key flash sound moves earlier later x now now' state reason config s hhandled hdone hdata
      hreset hrunning hready hqueue stopped
    obtain ⟨past, hs, ⟨a, rfl⟩, hcontent⟩ :=
      Interleaved.content_of_done confined sound hhandled hdone hdata
    rw [← hhandled] at hreset
    obtain ⟨rest, hrest⟩ := List.head?_eq_some_iff.mp hqueue
    obtain ⟨hstopped, hflash⟩ := Interleaved.reset_of_disconnected
      (Interleaved.resetRequested_of_handled hreset) hrunning hready hrest now now'
    obtain ⟨record, hbefore, hafter⟩ := Snapshot.exchange_done_record confined hs
      (by change Layout.appBase.toNat + BootRecord.byteSize ≤ UInt32.size; decide) hdone
    have htarget : bootTarget ⟨reason, state.consumed.retained⟩
        ((view.content stopped.flash).peek Layout.appBase.toNat BootRecord.byteSize) =
          .application { record with tag := RecordTag.confirmedWord } := by
      rw [bootTarget_consumed, hflash, hcontent]
      exact (congrArg (BootTarget.select · false) hafter).trans (BootTarget.select_confirmed record)
    refine ⟨hstopped, record, ?_, htarget, fun memory key' script hmemory => ?_⟩
    · rw [Snapshot.exchange_before]
      exact hbefore
    · rw [← hmemory] at htarget
      exact run_of_application htarget key' script

end FirmwareUpdate.Device

/-! ### An update of a device -/

namespace FirmwareUpdate.Device

namespace SmallUpdate

def config : Config := { key := Vector.replicate 32 0 }

def chip : NorFlash FlashMemory := FlashMemory.chip Layout.pageSize

/-- The start of the application region, erased but for the tag of a provisional record. -/
def flash : FlashMemory :=
  (FlashMemory.erased Layout.appBase.toNat 64).poke (Layout.appBase.toNat + 16)
    (LittleEndian.encode32 RecordTag.provisionalWord)

theorem flash_sound : FlashMemory.view.Sound flash := by
  have hfaults : flash.faults = [] := by decide +kernel
  simp [FlashMemory.view, hfaults]

/-- The tag is checked and confirmed, and a reset is asked for. -/
def check : ControlPacket := { command := .digest, length := 4, address := Layout.appBase + 16 }

/-- The digest of a provisional tag. -/
def digest : Bytes :=
  [131, 47, 77, 247, 82, 210, 59, 129, 222, 211, 172, 132, 7, 3, 222, 148,
    77, 21, 253, 52, 122, 91, 158, 232, 186, 113, 241, 187, 103, 185, 126, 59]

def done : ControlPacket := { command := .done }

def reset : ControlPacket := { command := .reset }

/-- The peer leaves before anything is handled. -/
def moves : List Interleaved.Move :=
  [.take .connect, .take (.write .control check.encode), .take (.write .data digest),
    .take (.write .control done.encode), .take (.write .control reset.encode), .take .disconnect] ++
    List.replicate 11 (.advance 0)

/-- The device once it has handled the packets. -/
def handled : Interleaved FlashMemory := (Interleaved.start flash).run config chip moves

theorem handled_ready :
    handled.mode.stopped = none ∧ handled.pending = [] ∧
      handled.mode.queue.toList.head? = some .disconnected := by
  decide +kernel

def checked : Snapshot Layout.pageSize FlashMemory :=
  Snapshot.run config chip { flash } [⟨0, .control check.encode⟩, ⟨0, .data digest⟩]

theorem calls_moves :
    calls ((Interleaved.start flash).services config chip moves) =
      [⟨0, .control check.encode⟩, ⟨0, .data digest⟩, ⟨0, .control done.encode⟩,
        ⟨0, .control reset.encode⟩] := by
  decide +kernel

def doneReceived : Exchange Layout.pageSize FlashMemory :=
  checked.exchange config chip ⟨0, .control done.encode⟩

def resetReceived : Exchange Layout.pageSize FlashMemory :=
  doneReceived.after.exchange config chip ⟨0, .control reset.encode⟩

theorem done_reset_accepted :
    doneReceived.Accepts .done ∧ resetReceived.Accepts .reset ∧ ¬resetReceived.Accepts .data := by
  decide +kernel

end SmallUpdate

open SmallUpdate in
theorem done_starts_application_small :
    doneReceived.Accepts .done ∧ handled.pending = [] ∧
      let stopped := ((handled.advance SmallUpdate.config SmallUpdate.chip 0).advance
        SmallUpdate.config SmallUpdate.chip 0).mode
      let asked : ResetState := ⟨4, UpdateRequest.key⟩
      stopped.stopped = some .reset ∧
      ∃ record, SmallUpdate.config.record? (FlashMemory.view.content checked.flash) = some record ∧
        (boot ⟨4, asked.consumed.retained⟩ ((FlashMemory.view.content stopped.flash).peek
          Layout.appBase.toNat BootRecord.byteSize)).1 =
            .application { record with tag := RecordTag.confirmedWord } ∧
        (run ⟨4, asked.consumed.retained⟩ SmallUpdate.config.key stopped.flash []).start.getLast? =
          some (.jump noReturn record.stackTop record.resetVector) := by
  have hhandled : Interleaved.handled SmallUpdate.config SmallUpdate.chip SmallUpdate.flash moves =
      Snapshot.exchanges SmallUpdate.config SmallUpdate.chip { flash := SmallUpdate.flash }
        [⟨0, .control check.encode⟩, ⟨0, .data digest⟩] ++ doneReceived :: [resetReceived] := by
    rw [Interleaved.handled, calls_moves]
    rfl
  obtain ⟨hdone, hreset, hnot⟩ := done_reset_accepted
  have hdata : ∀ y ∈ [resetReceived], ¬y.Accepts .data := by
    intro y hy
    rw [List.mem_singleton.mp hy]
    exact hnot
  obtain ⟨hrunning, hready, hqueue⟩ := handled_ready
  obtain ⟨hstopped, record, hrecord, hboot, hrun⟩ :=
    (done_starts_application SmallUpdate.chip FlashMemory.view
      (FlashMemory.chip_atomic Layout.pageSize).toHonest.confined).2 (Vector.replicate 32 0)
      SmallUpdate.flash SmallUpdate.flash_sound moves _ _ _ 0 0 ⟨4, UpdateRequest.key⟩ 4 hhandled
      hdone hdata
      ⟨_, List.mem_append_right _ (List.mem_cons_of_mem _ List.mem_cons_self), hreset⟩
      hrunning hready hqueue
  rw [doneReceived, Snapshot.exchange_before] at hrecord
  obtain ⟨_, hstart⟩ := hrun _ SmallUpdate.config.key [] rfl
  exact ⟨hdone, hready, hstopped, record, hrecord, hboot, congrArg List.getLast? hstart⟩

end FirmwareUpdate.Device
