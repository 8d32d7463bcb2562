import FirmwareUpdate.Proofs.Boot
import FirmwareUpdate.Proofs.Confirmation
import FirmwareUpdate.Proofs.Engine.Latch
import FirmwareUpdate.Proofs.Flash.Memory
import FirmwareUpdate.Proofs.Wire
import Mathlib.Control.Monad.Basic

/-!
# Commands that are refused

A command that is refused leaves the session, the chaining vector, what is pending and what was asked for
as they were, and tells the peer nothing. It changes flash only if it is `done` and its tag was programmed
before it could be checked.
-/

namespace FirmwareUpdate

variable {page : Nat} {σ : Type} {config : Config} {chip : NorFlash σ} {view : NorFlash.View σ}

/-! ### Taking up a unit and confirming -/

namespace Assembly

open Attempt

variable {key : Aes256.Key} {a : Assembly page} {board : Board σ}

/-- The pending span, if there is one, with the base of the buffered unit and the bytes in it. -/
def pending? (a : Assembly page) : Option (Span × Option (UInt32 × Bytes)) :=
  a.pending.map fun s => (s, a.buffer.map fun u => (u.base, u.spanBytes s))

theorem pending?_of_nothing (h : a.NothingPending) : a.pending? = none := by
  simp [pending?, h.eq_none]

/-- With nothing pending, a unit that cannot be taken up cost one read. -/
theorem seek_refused (inert : chip.Inert view) (sound : view.Sound board.flash)
    (hnothing : a.NothingPending) {address : UInt32} :
    (seek key chip address).Yields (a, board) (fun _ _ => True)
      fun _ st => st.1 = a.discard ∧
        view.content st.2.flash = view.content board.flash ∧
        ∃ call failure, st.2.events = board.events.push (.flash call failure) := by
  refine (yields_seek_nothing hnothing).mpr ⟨fun _ => trivial, fun _ => yields_load.mpr ?_⟩
  exact Board.yields_call (fun _ _ _ => trivial)
    fun _ _ hrun => ⟨hnothing.release_eq, (inert.read_error sound hrun).2, _, _, rfl⟩

end Assembly

namespace Confirmation

open Attempt

/-- The tag was programmed, and could not be read back or read otherwise. -/
inductive InDoubt (address : UInt32) : UpdateError → Array Event → Prop
  | unread (e : FlashError) :
      InDoubt address (.flash e)
        #[.flash (tagRead address) none, .flash (tagWrite address) none,
          .flash (tagRead address) (some e)]
  | otherwise {tag : UInt32} (htag : tag ≠ RecordTag.confirmedWord) :
      InDoubt address (.bootRecord tag)
        #[.flash (tagRead address) none, .flash (tagWrite address) none,
          .flash (tagRead address) none]

/-- Confirming that is refused has changed nothing, or it has programmed the tag and is in doubt of it. -/
theorem run_inDoubt (failsafe : chip.Failsafe view) {flash : σ} (sound : view.Sound flash)
    (record : UInt32) :
    (run chip record).Yields { flash } (fun _ _ => True)
      fun err board => (∀ event ∈ board.events, event.IsCall) ∧
        (view.content board.flash = view.content flash ∨
          InDoubt (record + BootRecord.tagOffset) err board.events ∧
            ∀ x, x < (record + BootRecord.tagOffset).toNat ∨
                (record + BootRecord.tagOffset).toNat + 4 ≤ x →
              view.content board.flash x = view.content flash x) := by
  simp only [run, readWord, program, yields_bind, yields_pure, yields_ite, yields_throw,
    yields_refuseIf]
  refine Board.yields_call (fun bytes flash₁ hread => ?_) fun e flash₁ hread => ?_
  · obtain ⟨hsound₁, hcontent₁⟩ := failsafe.read_ok sound hread
    refine ⟨fun _ => trivial, fun _ => ⟨fun _ => ?_, fun _ => ⟨by simp [Event.IsCall], Or.inl hcontent₁⟩⟩⟩
    refine Board.yields_call (fun _ flash₂ hwrite => ?_) fun e flash₂ hwrite => ?_
    · obtain ⟨hsound₂, houtside⟩ := failsafe.write_ok hsound₁ hwrite
      have hbeside {flash₃ : σ} (hcontent₃ : view.content flash₃ = view.content flash₂) (x : Nat)
          (hx : x < (record + BootRecord.tagOffset).toNat ∨
            (record + BootRecord.tagOffset).toNat + 4 ≤ x) :
          view.content flash₃ x = view.content flash x := by
        rw [hcontent₃, houtside x hx, hcontent₁]
      refine Board.yields_call (fun tag flash₃ hagain => ⟨fun htag => ?_, fun _ => trivial⟩)
        fun e flash₃ hagain => ?_
      · exact ⟨by simp [Event.IsCall],
          Or.inr ⟨InDoubt.otherwise htag, hbeside (failsafe.read_ok hsound₂ hagain).2⟩⟩
      · exact ⟨by simp [Event.IsCall],
          Or.inr ⟨InDoubt.unread e, hbeside (failsafe.read_error hsound₂ hagain).2⟩⟩
    · exact ⟨by simp [Event.IsCall],
        Or.inl ((failsafe.write_error hsound₁ hwrite).2.trans hcontent₁)⟩
  · exact ⟨by simp [Event.IsCall], Or.inl (failsafe.read_error sound hread).2⟩

end Confirmation

/-! ### Commands -/

/-- What stays as it was when a command is refused with `err`. -/
structure Exchange.Spares (config : Config) (view : NorFlash.View σ) (err : UpdateError)
    (x : Exchange page σ) : Prop where
  session : x.after.engine.session = x.before.engine.session
  vector : x.after.engine.assembly.vector = x.before.engine.assembly.vector
  pending : x.after.engine.assembly.pending? = x.before.engine.assembly.pending?
  resetRequested : x.after.engine.resetRequested = x.before.engine.resetRequested
  halted : x.after.engine.halted = x.before.engine.halted ∨
    x.after.engine.halted = true ∧
      ((∃ tag, err = .bootRecord tag) ∨ ∃ expected actual, err = .eraseUnit expected actual)
  silent : x.Silent
  content : view.content x.after.flash = view.content x.before.flash ∨
    x.Asks .done ∧ Confirmation.InDoubt config.tagAddress err x.events ∧
      ∀ address, address < config.tagAddress.toNat ∨ config.tagAddress.toNat + 4 ≤ address →
        view.content x.after.flash address = view.content x.before.flash address

/-- An engine halts only for a tag that no image may have, or if it does not fit the chip. -/
theorem Engine.halted_haltedBy (e : Engine page) (err : UpdateError) :
    (e.haltedBy err).halted = e.halted ∨
      (e.haltedBy err).halted = true ∧
        ((∃ tag, err = .bootRecord tag) ∨ ∃ expected actual, err = .eraseUnit expected actual) := by
  unfold haltedBy
  cases err with
  | bootRecord tag => exact Or.inr ⟨Bool.or_true _, Or.inl ⟨tag, rfl⟩⟩
  | eraseUnit expected actual => exact Or.inr ⟨Bool.or_true _, Or.inr ⟨expected, actual, rfl⟩⟩
  | _ => exact Or.inl (Bool.or_false _)

namespace Snapshot

open Attempt Engine

variable {s : Snapshot page σ} {a : Arrival} {now : UInt64} {bytes : Bytes} {err : UpdateError}
variable {answer : Except UpdateError Unit} {events : Array Event} {flash : σ}

/-- A command that is refused before anything is done spares everything. -/
theorem spares_untouched :
    Exchange.Spares config view err ⟨a, s, answer, #[], ⟨s.engine.haltedBy err, s.flash⟩⟩ where
  session := rfl
  vector := rfl
  pending := rfl
  resetRequested := rfl
  halted := s.engine.halted_haltedBy err
  silent := by simp [Exchange.Silent]
  content := Or.inl rfl

/-- With nothing pending, giving up the buffered unit loses nothing. -/
theorem spares_discarded (hnothing : s.engine.assembly.NothingPending)
    (hsilent : ∀ event ∈ events, event.IsCall)
    (hcontent : view.content flash = view.content s.flash ∨
      (∃ p, a.packet.command? = some p ∧ p.command = .done) ∧
        Confirmation.InDoubt config.tagAddress err events ∧
          ∀ address, address < config.tagAddress.toNat ∨ config.tagAddress.toNat + 4 ≤ address →
            view.content flash address = view.content s.flash address) :
    Exchange.Spares config view err
      ⟨a, s, answer, events,
        ⟨({ s.engine with assembly := s.engine.assembly.discard }).haltedBy err, flash⟩⟩ where
  session := rfl
  vector := rfl
  pending := by
    rw [Assembly.pending?_of_nothing hnothing]
    rfl
  resetRequested := rfl
  halted := Engine.halted_haltedBy _ err
  silent := hsilent
  content := hcontent

theorem exchange_spares (failsafe : chip.Failsafe view) (sound : view.Sound s.flash)
    (hconsistent : s.engine.Consistent)
    (hanswer : (s.exchange config chip ⟨now, .control bytes⟩).answer = .error err) :
    (s.exchange config chip ⟨now, .control bytes⟩).Spares config view err := by
  have hsame (err : UpdateError) : ∀ err', (Except.error err : Except UpdateError Unit) = .error err' →
      Exchange.Spares config view err'
        ⟨⟨now, .control bytes⟩, s, .error err, #[], ⟨s.engine.haltedBy err, s.flash⟩⟩ := by
    rintro _ ⟨⟩
    exact spares_untouched
  refine exchange_holds (R := fun x => ∀ err, x.answer = .error err → x.Spares config view err) ?_
    err hanswer
  refine yields_receive.mpr ⟨fun _ => ?_, fun _ _ => ?_, fun _ _ => ?_⟩
  · have hhalted := hsame .halted
    rwa [haltedBy_of_not_fatal rfl] at hhalted
  · have hhalted : ({ s.engine with halted := true } : Engine page) =
        s.engine.haltedBy (.eraseUnit page chip.eraseSize) := by
      simp [haltedBy, UpdateError.isFatal]
    rw [hhalted]
    exact hsame (.eraseUnit page chip.eraseSize)
  refine yields_handle_control (fun error _ => hsame (.malformed error)) fun packet hdecode => ?_
  refine yields_execute (fun err _ => hsame err) ?_
  cases hcommand : packet.command with
  | restart | reset | ping => exact fun _ h => by cases h
  | vector | digest => exact fun _ _ h => by cases h
  | data =>
      intro hidle _ _ _
      have hnothing := hconsistent.nothingPending (by simp [hidle])
      refine (Assembly.seek_refused failsafe.toInert
        (sound : view.Sound (Board.mk s.flash #[]).flash) hnothing).mono
        (fun _ _ _ _ h => by cases h) ?_
      rintro err ⟨_, flash, events⟩ ⟨rfl, hcontent, call, failure, rfl⟩ _ ⟨⟩
      exact spares_discarded hnothing (by simp [Event.IsCall]) (Or.inl hcontent)
  | done =>
      intro hidle _
      have hnothing := hconsistent.nothingPending (by simp [hidle])
      refine (Confirmation.run_inDoubt failsafe sound _).mono (fun _ _ _ _ h => by cases h) ?_
      rintro err ⟨flash, events⟩ ⟨hsilent, hcontent⟩ _ ⟨⟩
      refine spares_discarded hnothing hsilent (hcontent.imp_right fun hdoubt => ⟨?_, hdoubt⟩)
      exact ⟨packet, by simp [Packet.command?, hdecode, Except.toOption], hcommand⟩

/-- While something is awaited, nothing new is begun and nothing is confirmed. -/
theorem exchange_busy (hs : s.engine.Attentive chip) (hbusy : s.engine.session.activity ≠ .idle)
    {packet : ControlPacket} (hdecode : ControlPacket.decode bytes = .ok packet)
    (hcommand : packet.command ∈ [Command.data, .vector, .digest, .done]) :
    (s.exchange config chip ⟨now, .control bytes⟩).answer = .error .busy := by
  have hp : (Packet.control bytes).command? = some packet := by
    simp [Packet.command?, hdecode, Except.toOption]
  refine exchange_holds (R := fun x => x.answer = .error .busy) (hs.yields_receive hbusy ?_)
  rw [handle_of_command hp, execute]
  cases hcase : packet.command with
  | data => exact yields_beginTransfer.mpr ⟨fun _ => rfl, fun hidle => absurd hidle hbusy⟩
  | vector => exact yields_awaitVector.mpr ⟨fun _ => rfl, fun hidle => absurd hidle hbusy⟩
  | digest => exact yields_awaitDigest.mpr ⟨fun _ => rfl, fun hidle => absurd hidle hbusy⟩
  | done => exact yields_confirmImage.mpr ⟨fun _ => rfl, fun hidle => absurd hidle hbusy⟩
  | restart | reset | ping => simp [hcase] at hcommand

/-- A command that is refused changes nothing, whatever came before: on a chip whose failed calls change
nothing, only `done` can have changed flash, and then only its tag, which it could not read back or read
otherwise. While something is awaited, commands that begin something or confirm the image are refused. -/
theorem refused_command_changes_nothing (config : Config) (chip : NorFlash σ) (view : NorFlash.View σ)
    (hpos : 0 < page) (failsafe : chip.Failsafe view) (flash : σ) (past : List Arrival)
    (sound : view.Sound ((⟨{}, flash⟩ : Snapshot page σ).run config chip past).flash) (now : UInt64)
    (bytes : Bytes) :
    let s := (⟨{}, flash⟩ : Snapshot page σ).run config chip past
    let x := s.exchange config chip ⟨now, .control bytes⟩
    (∀ err, x.answer = .error err → x.Spares config view err) ∧
      (s.engine.session.activity ≠ .idle →
        ∀ packet, ControlPacket.decode bytes = .ok packet →
          packet.command ∈ [Command.data, .vector, .digest, .done] → x.answer = .error .busy) :=
  ⟨fun _ hanswer => exchange_spares failsafe sound (run_consistent consistent_fresh past) hanswer,
    fun hbusy _ hdecode hcommand => exchange_busy (run_attentive hpos flash past) hbusy hdecode hcommand⟩

end Snapshot

/-! ### A tag that is not programmed -/

namespace SmallDevice

/-- The flash of the small device, but programming the tag is only feigned. -/
def feigning : FlashMemory :=
  { flash with faults := [{ kind := .write, start := 32, length := 4, effect := .ignore }] }

/-- What comes of `done` on that flash after some packets. -/
def feignedDone (past : List Arrival) : Exchange 16 FlashMemory :=
  ((⟨{}, feigning⟩ : Snapshot 16 FlashMemory).run SmallDevice.config SmallDevice.chip past).exchange
    SmallDevice.config SmallDevice.chip done

end SmallDevice

open SmallDevice in
theorem refused_command_changes_nothing_small :
    SmallDevice.chip.Failsafe FlashMemory.faultyView ∧
      (feignedDone check).answer = .error (.bootRecord RecordTag.provisionalWord) ∧
      (feignedDone check).Spares SmallDevice.config FlashMemory.faultyView
        (.bootRecord RecordTag.provisionalWord) ∧
      (feignedDone (check.take 1)).before.engine.session.activity ≠ .idle ∧
      (feignedDone (check.take 1)).answer = .error .busy := by
  have hfailsafe : SmallDevice.chip.Failsafe FlashMemory.faultyView := FlashMemory.chip_failsafe 16
  have hanswer : (feignedDone check).answer = .error (.bootRecord RecordTag.provisionalWord) := by
    decide +kernel
  have hbusy : (feignedDone (check.take 1)).before.engine.session.activity ≠ .idle := by decide +kernel
  have h (past : List Arrival) := Snapshot.refused_command_changes_nothing SmallDevice.config
    SmallDevice.chip FlashMemory.faultyView (by decide : 0 < 16) hfailsafe feigning past trivial 0
    (ControlPacket.encode { command := .done })
  exact ⟨hfailsafe, hanswer, (h check).1 _ hanswer, hbusy,
    (h (check.take 1)).2 hbusy _ (ControlPacket.decode_encode _) (by decide)⟩

end FirmwareUpdate
