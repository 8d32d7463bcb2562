import FirmwareUpdate.Boot.Confirmation
import FirmwareUpdate.Proofs.Board

/-!
# Confirming an image

The tag decides what confirming does on an honest chip: a provisional tag is programmed over and then
reads confirmed, any other is left alone. On an atomic chip there are six outcomes.
-/

namespace FirmwareUpdate.Confirmation

open Attempt

variable {σ : Type} {chip : NorFlash σ} {view : NorFlash.View σ} {board : Board σ}
variable {post : Confirmation → Board σ → Prop} {refused : UpdateError → Board σ → Prop}

/-- The call that reads the tag of a record. -/
def tagRead (address : UInt32) : FlashCall := .read address 4

/-- The call that programs the confirmed tag. -/
def tagWrite (address : UInt32) : FlashCall :=
  .write address (LittleEndian.encode32 RecordTag.confirmedWord)

theorem yields_readWord (truthful : chip.Truthful view) (sound : view.Sound board.flash)
    {address : UInt32} {post : UInt32 → Board σ → Prop}
    (hok : ∀ flash, view.Sound flash → view.content flash = view.content board.flash →
      post ((view.content board.flash).word address.toNat)
        ⟨flash, board.events.push (.flash (tagRead address) none)⟩)
    (herror : ∀ e flash, view.Sound flash → view.content flash = view.content board.flash →
      refused (.flash e) ⟨flash, board.events.push (.flash (tagRead address) (some e))⟩) :
    (readWord chip address).Yields board post refused := by
  rw [readWord, yields_bind]
  refine Board.yields_read truthful sound ?_ herror
  intro bytes flash hsound hcontent hbytes
  rw [yields_pure, hbytes]
  exact hok flash hsound hcontent

theorem yields_program (honest : chip.Honest view) (sound : view.Sound board.flash)
    {address : UInt32}
    (htag : (view.content board.flash).word address.toNat = RecordTag.provisionalWord)
    (hfailed : ∀ e flash, view.Sound flash → (chip.write address
        (LittleEndian.encode32 RecordTag.confirmedWord)).run board.flash = .error e flash →
      refused (.flash e) ⟨flash, board.events.push (.flash (tagWrite address) (some e))⟩)
    (hunread : ∀ e flash, view.Sound flash →
      view.content flash = (view.content board.flash).program address.toNat
        (LittleEndian.encode32 RecordTag.confirmedWord) →
      refused (.flash e)
        ⟨flash, (board.events.push (.flash (tagWrite address) none)).push
          (.flash (tagRead address) (some e))⟩)
    (hdone : ∀ flash, view.Sound flash →
      view.content flash = (view.content board.flash).program address.toNat
        (LittleEndian.encode32 RecordTag.confirmedWord) →
      post confirmed
        ⟨flash, (board.events.push (.flash (tagWrite address) none)).push
          (.flash (tagRead address) none)⟩) :
    (program chip address).Yields board post refused := by
  rw [program, yields_bind]
  apply Board.yields_call
  · intro _ flash hrun
    obtain ⟨hsound, hcontent⟩ := honest.write_ok sound hrun
    have hafter := FlashContent.word_program_confirmed htag
    rw [yields_bind]
    apply yields_readWord honest.truthful hsound
    · intro flash' hsound' hcontent'
      simp only [yields_bind, yields_refuseIf, yields_pure, hcontent, hafter]
      exact ⟨fun h => absurd rfl h, fun _ => hdone flash' hsound' (hcontent'.trans hcontent)⟩
    · intro e flash' hsound' hcontent'
      exact hunread e flash' hsound' (hcontent'.trans hcontent)
  · intro e flash hrun
    exact hfailed e flash (honest.write_error sound hrun) hrun

theorem yields_run (truthful : chip.Truthful view) (sound : view.Sound board.flash) {record : UInt32}
    (hunread : ∀ e flash, view.Sound flash → view.content flash = view.content board.flash →
      refused (.flash e)
        ⟨flash, board.events.push (.flash (tagRead (record + BootRecord.tagOffset)) (some e))⟩)
    (hconfirmed : (view.content board.flash).word (record + BootRecord.tagOffset).toNat =
        RecordTag.confirmedWord →
      ∀ flash, view.Sound flash → view.content flash = view.content board.flash →
        post alreadyConfirmed
          ⟨flash, board.events.push (.flash (tagRead (record + BootRecord.tagOffset)) none)⟩)
    (hother : (view.content board.flash).word (record + BootRecord.tagOffset).toNat ≠
        RecordTag.confirmedWord →
      (view.content board.flash).word (record + BootRecord.tagOffset).toNat ≠
        RecordTag.provisionalWord →
      ∀ flash, view.Sound flash → view.content flash = view.content board.flash → refused
        (.bootRecord ((view.content board.flash).word (record + BootRecord.tagOffset).toNat))
        ⟨flash, board.events.push (.flash (tagRead (record + BootRecord.tagOffset)) none)⟩)
    (hprovisional : (view.content board.flash).word (record + BootRecord.tagOffset).toNat =
        RecordTag.provisionalWord →
      ∀ flash, view.Sound flash → view.content flash = view.content board.flash →
        (program chip (record + BootRecord.tagOffset)).Yields
          ⟨flash, board.events.push (.flash (tagRead (record + BootRecord.tagOffset)) none)⟩
          post refused) :
    (run chip record).Yields board post refused := by
  simp only [run, yields_bind]
  refine yields_readWord truthful sound ?_ hunread
  intro flash hsound hcontent
  simp only [yields_ite, yields_pure, yields_throw]
  exact ⟨fun h => hconfirmed h flash hsound hcontent,
    fun hno => ⟨fun h => hprovisional h flash hsound hcontent,
      fun hno' => hother hno hno' flash hsound hcontent⟩⟩

/-- Where confirming succeeds the tag reads confirmed afterwards, and nothing else has changed: the chip
may have feigned to program, but then the tag read back is not the one that was meant. -/
theorem run_confined (confined : chip.Confined view) (sound : view.Sound board.flash)
    (record : UInt32) :
    let address := (record + BootRecord.tagOffset).toNat
    (run chip record).Yields board
      (fun _ board' => view.Sound board'.flash ∧
        (view.content board'.flash).word address = RecordTag.confirmedWord ∧
          ∀ x, x < address ∨ address + 4 ≤ x →
            view.content board'.flash x = view.content board.flash x)
      fun _ board' => view.Sound board'.flash := by
  intro address
  apply yields_run confined.toTruthful sound
  · intro e flash hsound _
    exact hsound
  · intro htag flash hsound hcontent
    rw [hcontent]
    exact ⟨hsound, htag, fun _ _ => rfl⟩
  · intro _ _ flash hsound _
    exact hsound
  · intro _ flash hsound hcontent
    rw [program, yields_bind]
    apply Board.yields_call
    · intro _ flash' hrun
      obtain ⟨hsound', houtside⟩ := confined.write_ok hsound hrun
      rw [yields_bind]
      apply yields_readWord confined.toTruthful hsound'
      · intro flash'' hsound'' hcontent''
        simp only [yields_bind, yields_refuseIf, yields_pure, Decidable.not_not, hcontent'']
        refine ⟨fun _ => hsound'', fun htag => ⟨hsound'', htag, fun x hx => ?_⟩⟩
        rw [houtside x hx, hcontent]
      · intro e flash'' hsound'' _
        exact hsound''
    · intro e flash' hrun
      exact confined.write_error hsound hrun

/-- A record that is confirmed already is only looked at. -/
theorem run_keeps_of_confirmed {P : Board σ → Prop} (truthful : chip.Truthful view)
    (sound : view.Sound board.flash) {record : UInt32}
    (htag : (view.content board.flash).word (record + BootRecord.tagOffset).toNat =
      RecordTag.confirmedWord)
    (hreads : Board.KeptByReads chip P) (hP : P board) :
    (run chip record).Yields board (fun _ => P) fun _ => P := by
  have htold : (readWord chip (record + BootRecord.tagOffset)).Yields board
      (fun tag _ => tag = RecordTag.confirmedWord) fun _ _ => True :=
    yields_readWord truthful sound (fun _ _ _ => htag) fun _ _ _ _ => trivial
  have hkept : (readWord chip (record + BootRecord.tagOffset)).Keeps P :=
    (hreads.read _ _).bind fun _ => keeps_pure
  simp only [run, yields_bind]
  refine (htold.and (hkept board hP)).mono (fun tag board' h => ?_) fun _ _ h => h.2
  rw [h.1]
  exact h.2

/-- What confirming the record whose tag is at `address` can come to on an atomic chip with some
content: the answer, the record of events that continues `events`, and the content afterwards. -/
inductive Outcome (content : FlashContent) (address : UInt32) (events : Array Event) :
    Except UpdateError Unit → Array Event → FlashContent → Prop
  | unread (e : FlashError) :
      Outcome content address events (.error (.flash e))
        (events.push (.flash (tagRead address) (some e))) content
  | already (htag : content.word address.toNat = RecordTag.confirmedWord) :
      Outcome content address events (.ok ()) (events.push (.flash (tagRead address) none)) content
  | foreign (hconfirmed : content.word address.toNat ≠ RecordTag.confirmedWord)
      (hprovisional : content.word address.toNat ≠ RecordTag.provisionalWord) :
      Outcome content address events (.error (.bootRecord (content.word address.toNat)))
        (events.push (.flash (tagRead address) none)) content
  | unwritten (htag : content.word address.toNat = RecordTag.provisionalWord) (e : FlashError) :
      Outcome content address events (.error (.flash e))
        ((events.push (.flash (tagRead address) none)).push (.flash (tagWrite address) (some e)))
        content
  /-- The tag is programmed, but cannot be read back. -/
  | unchecked (htag : content.word address.toNat = RecordTag.provisionalWord) (e : FlashError) :
      Outcome content address events (.error (.flash e))
        (((events.push (.flash (tagRead address) none)).push (.flash (tagWrite address) none)).push
          (.flash (tagRead address) (some e)))
        (content.program address.toNat (LittleEndian.encode32 RecordTag.confirmedWord))
  | done (htag : content.word address.toNat = RecordTag.provisionalWord) :
      Outcome content address events (.ok ())
        (((events.push (.flash (tagRead address) none)).push (.flash (tagWrite address) none)).push
          (.flash (tagRead address) none))
        (content.program address.toNat (LittleEndian.encode32 RecordTag.confirmedWord))

/-- Nothing is written unless the tag is provisional. -/
theorem Outcome.provisional_of_write {content content' : FlashContent} {address : UInt32}
    {answer : Except UpdateError Unit} {events : Array Event}
    (h : Outcome content address #[] answer events content') {start : UInt32} {bytes : Bytes}
    {failure : Option FlashError} (hmem : .flash (.write start bytes) failure ∈ events) :
    content.word address.toNat = RecordTag.provisionalWord := by
  cases h with
  | unread | already | foreign => simp [tagRead] at hmem
  | unwritten htag | unchecked htag | done htag => exact htag

/-- Either the content stays as it was, or the tag is confirmed afterwards. -/
theorem Outcome.content_eq_or_confirmed {content content' : FlashContent} {address : UInt32}
    {answer : Except UpdateError Unit} {events events' : Array Event}
    (h : Outcome content address events answer events' content') :
    content' = content ∨ content'.word address.toNat = RecordTag.confirmedWord := by
  cases h with
  | unread | already | foreign | unwritten => exact Or.inl rfl
  | unchecked htag | done htag => exact Or.inr (FlashContent.word_program_confirmed htag)

/-- Where confirming succeeds, the tag is confirmed afterwards. -/
theorem Outcome.confirmed_of_accepted {content content' : FlashContent} {address : UInt32}
    {events events' : Array Event}
    (h : Outcome content address events (.ok ()) events' content') :
    content'.word address.toNat = RecordTag.confirmedWord := by
  cases h with
  | already htag => exact htag
  | done htag => exact FlashContent.word_program_confirmed htag

/-- Confirming comes to one of the outcomes. -/
theorem run_outcome (atomic : chip.Atomic view) (sound : view.Sound board.flash)
    (record : UInt32) :
    (run chip record).Yields board
      (fun _ board' => Outcome (view.content board.flash) (record + BootRecord.tagOffset)
        board.events (.ok ()) board'.events (view.content board'.flash))
      fun e board' => Outcome (view.content board.flash) (record + BootRecord.tagOffset)
        board.events (.error e) board'.events (view.content board'.flash) := by
  apply yields_run atomic.truthful sound
  · intro e flash _ hcontent
    rw [hcontent]
    exact Outcome.unread e
  · intro htag flash _ hcontent
    rw [hcontent]
    exact Outcome.already htag
  · intro hconfirmed hprovisional flash _ hcontent
    rw [hcontent]
    exact Outcome.foreign hconfirmed hprovisional
  · intro htag flash hsound hcontent
    apply yields_program atomic.toHonest hsound (by rw [hcontent]; exact htag)
    · intro e flash' _ hrun
      rw [atomic.write_error_content hsound hrun, hcontent]
      exact Outcome.unwritten htag e
    · intro e flash' _ hcontent'
      rw [hcontent', hcontent]
      exact Outcome.unchecked htag e
    · intro flash' _ hcontent'
      rw [hcontent', hcontent]
      exact Outcome.done htag

end FirmwareUpdate.Confirmation
