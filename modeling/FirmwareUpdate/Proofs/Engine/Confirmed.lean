import FirmwareUpdate.Proofs.Engine.Coverage
import FirmwareUpdate.Proofs.Engine.Transfer

/-!
# What an accepted `done` leaves behind

An accepted `done` leaves a record that starts the application: the record that was there, but with
the confirmed tag. From then on every command finds a confirmed record, so flash changes only once a
transfer is accepted.
-/

namespace FirmwareUpdate

variable {page : Nat} {σ : Type} {config : Config} {chip : NorFlash σ} {view : NorFlash.View σ}
variable {s : Snapshot page σ} {a : Arrival}

/-- A record with the confirmed tag starts the application if no update is asked for. -/
theorem BootTarget.select_confirmed (record : BootRecord) :
    BootTarget.select (some { record with tag := RecordTag.confirmedWord }) false =
      .application { record with tag := RecordTag.confirmedWord } := by
  have hkind : ({ record with tag := RecordTag.confirmedWord } : BootRecord).kind = .confirmed :=
    RecordTag.ofWord_eq_confirmed_iff.mpr rfl
  simp [BootTarget.select, hkind]

namespace Snapshot

theorem run_sound_of_confined (confined : chip.Confined view) (sound : view.Sound s.flash)
    (as : List Arrival) : view.Sound (s.run config chip as).flash := by
  apply run_induction (P := fun s => view.Sound s.flash) sound
  intro s a _ hs
  apply exchange_of_yields (Q := fun _ _ board => view.Sound board.flash)
  exact Engine.receive_keeps (Board.keptByCalls_sound confined) _ _ hs

theorem Reachable.sound (confined : chip.Confined view) (hs : s.Reachable config chip view) :
    view.Sound s.flash := by
  obtain ⟨flash, past, sound, rfl⟩ := hs
  exact run_sound_of_confined confined sound past

/-- An accepted `done` found an idle engine, and leaves the tag confirmed and all other bytes alone. -/
theorem exchange_done_accepted (confined : chip.Confined view) (sound : view.Sound s.flash)
    (h : (s.exchange config chip a).Accepts .done) :
    s.engine.session.activity = .idle ∧
      let content := view.content (s.exchange config chip a).after.flash
      view.Sound (s.exchange config chip a).after.flash ∧
        content.word config.tagAddress.toNat = RecordTag.confirmedWord ∧
          ∀ x, x < config.tagAddress.toNat ∨ config.tagAddress.toNat + 4 ≤ x →
            content x = view.content s.flash x := by
  obtain ⟨hanswer, hasks⟩ := h
  refine exchange_done hasks (Q := fun answer board => answer = .ok () →
    s.engine.session.activity = .idle ∧ view.Sound board.flash ∧
      (view.content board.flash).word config.tagAddress.toNat = RecordTag.confirmedWord ∧
        ∀ x, x < config.tagAddress.toNat ∨ config.tagAddress.toNat + 4 ≤ x →
          view.content board.flash x = view.content s.flash x) ?_ ?_ hanswer
  · intro err _ hok
    simp at hok
  · intro hrefusal
    have hidle := (Engine.doneRefusal?_eq_none_iff.mp hrefusal).2.2.1
    refine (Confirmation.run_confined confined
      (sound : view.Sound (Board.mk s.flash #[]).flash) config.appBase).mono
      (fun _ _ hdone _ => ⟨hidle, hdone⟩) fun _ _ _ hok => ?_
    simp at hok

/-! ### Once the record is confirmed -/

variable {content : FlashContent}

/-- With a confirmed record, packets other than payload only read flash. -/
theorem exchange_keeps_of_confirmed (truthful : chip.Truthful view) (hs : s.engine.Consistent)
    (sound : view.Sound s.flash)
    (htag : (view.content s.flash).word config.tagAddress.toNat = RecordTag.confirmedWord)
    (hpayload : ¬(s.exchange config chip a).CarriesPayload)
    {P : Board σ → Prop} (hreads : Board.KeptByReads chip P) (hP : P { flash := s.flash }) :
    P { flash := (s.exchange config chip a).after.flash
        events := (s.exchange config chip a).events } := by
  by_cases hdone : (s.exchange config chip a).Asks .done
  · refine exchange_done hdone (Q := fun _ board => P board) (fun _ _ => hP) fun _ => ?_
    exact Confirmation.run_keeps_of_confirmed truthful
      (sound : view.Sound (Board.mk s.flash #[]).flash) htag hreads hP
  · exact exchange_keeps hs hreads hpayload (fun h => absurd h hdone) hP

/-- No transfer is under way, and the record is confirmed. -/
structure Settled (config : Config) (view : NorFlash.View σ) (content : FlashContent)
    (s : Snapshot page σ) : Prop where
  consistent : s.engine.Consistent
  resting : ∀ base length, s.engine.session.activity ≠ .transfer base length
  sound : view.Sound s.flash
  content : view.content s.flash = content

/-- With no transfer under way and a confirmed record, packets only read flash. -/
theorem Settled.exchange_keeps (h : s.Settled config view content) (truthful : chip.Truthful view)
    (htag : content.word config.tagAddress.toNat = RecordTag.confirmedWord)
    {P : Board σ → Prop} (hreads : Board.KeptByReads chip P) (hP : P { flash := s.flash }) :
    P { flash := (s.exchange config chip a).after.flash
        events := (s.exchange config chip a).events } := by
  refine exchange_keeps_of_confirmed truthful h.consistent h.sound (h.content ▸ htag) ?_ hreads hP
  rintro ⟨-, base, length, hactivity⟩
  rw [exchange_before] at hactivity
  exact h.resting base length hactivity

/-- A packet that is not an accepted `data` leaves the device settled. -/
theorem Settled.exchange (h : s.Settled config view content) (truthful : chip.Truthful view)
    (htag : content.word config.tagAddress.toNat = RecordTag.confirmedWord)
    (hdata : ¬(s.exchange config chip a).Accepts .data) :
    (s.exchange config chip a).after.Settled config view content := by
  have hholds := h.exchange_keeps (a := a) truthful htag
    (Board.keptByReads_holds truthful.inert content) ⟨h.sound, h.content⟩
  refine ⟨exchange_consistent h.consistent, fun base length htransfer => ?_, hholds.1, hholds.2⟩
  have hmark : (s.exchange config chip a).mark ≠ some .transfer :=
    fun hmark => hdata (Exchange.accepts_data_of_mark hmark)
  exact h.resting base length (exchange_sameTransfer hmark base length htransfer)

/-- Without an accepted `data` flash stays as it is, and is only read. -/
theorem Settled.run (h : s.Settled config view content) (truthful : chip.Truthful view)
    (htag : content.word config.tagAddress.toNat = RecordTag.confirmedWord) {as : List Arrival}
    (hdata : ∀ x ∈ s.exchanges config chip as, ¬x.Accepts .data) :
    view.content (s.run config chip as).flash = content ∧
      ∀ x ∈ s.exchanges config chip as, ¬x.Erases ∧ ¬x.Writes := by
  induction as generalizing s with
  | nil => exact ⟨h.content, by simp [exchanges]⟩
  | cons a as ih =>
      rw [exchanges, List.forall_mem_cons] at hdata
      obtain ⟨hcontent, hrest⟩ := ih (h.exchange truthful htag hdata.1) hdata.2
      have hreads : Board.OnlyReads
          { flash := (s.exchange config chip a).after.flash
            events := (s.exchange config chip a).events } :=
        h.exchange_keeps truthful htag (Board.keptByReads_onlyReads chip) (by simp [Board.OnlyReads])
      rw [exchanges, List.forall_mem_cons]
      refine ⟨hcontent, ⟨?_, ?_⟩, hrest⟩
      · rintro ⟨start, stop, failure, hmem⟩
        obtain ⟨_, _, hcall⟩ := hreads _ _ hmem
        cases hcall
      · rintro ⟨address, bytes, failure, hmem⟩
        obtain ⟨_, _, hcall⟩ := hreads _ _ hmem
        cases hcall

/-- An accepted `done` leaves the device settled. -/
theorem settled_of_done (confined : chip.Confined view) (hs : s.Reachable config chip view)
    (h : (s.exchange config chip a).Accepts .done) :
    (s.exchange config chip a).after.Settled config view
      (view.content (s.exchange config chip a).after.flash) := by
  obtain ⟨hidle, hsound, _, _⟩ := exchange_done_accepted confined (hs.sound confined) h
  refine ⟨exchange_consistent hs.consistent, fun base length htransfer => ?_, hsound, rfl⟩
  have hmark : (s.exchange config chip a).mark ≠ some .transfer := by
    intro hmark
    obtain ⟨_, packet, hpacket, hcommand⟩ := h
    obtain ⟨_, packet', hpacket', hcommand'⟩ := Exchange.accepts_data_of_mark hmark
    obtain rfl := Option.some.inj (hpacket.symm.trans hpacket')
    exact absurd (hcommand.symm.trans hcommand') (by decide)
  have hbefore := exchange_sameTransfer hmark base length htransfer
  rw [hidle] at hbefore
  cases hbefore

/-- The record that an accepted `done` leaves is the one it found, with the confirmed tag. -/
theorem exchange_done_record (confined : chip.Confined view) (hs : s.Reachable config chip view)
    (hcovers : config.appBase.toNat + BootRecord.byteSize ≤ UInt32.size)
    (h : (s.exchange config chip a).Accepts .done) :
    ∃ record, config.record? (view.content s.flash) = some record ∧
      config.record? (view.content (s.exchange config chip a).after.flash) =
        some { record with tag := RecordTag.confirmedWord } := by
  obtain ⟨_, _, htag, houtside⟩ := exchange_done_accepted confined (hs.sound confined) h
  rw [Config.toNat_tagAddress hcovers] at htag houtside
  obtain ⟨record, hbefore, hafter⟩ := FlashContent.exists_parse?_peek_tag houtside
  refine ⟨record, hbefore, ?_⟩
  rw [Config.record?, hafter, htag]

end Snapshot

end FirmwareUpdate
