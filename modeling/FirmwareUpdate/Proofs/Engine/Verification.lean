import FirmwareUpdate.Proofs.Boot
import FirmwareUpdate.Proofs.Confirmation
import FirmwareUpdate.Proofs.Digest
import FirmwareUpdate.Proofs.Engine.Marks
import FirmwareUpdate.Proofs.Flash.Memory

/-!
# What is confirmed was verified

`done` looks at flash only while the last digest checked was a match, and no packet that preserves
the match changes flash, apart from `done` itself. So when `done` programs the tag, flash is still
what it was at that check.
-/

namespace FirmwareUpdate

variable {page : Nat} {σ : Type} {config : Config} {chip : NorFlash σ} {view : NorFlash.View σ}
variable {s : Snapshot page σ} {a : Arrival}

namespace Engine

open Attempt

variable {now : UInt64} {e : Engine page} {board : Board σ}

/-- Why `done` is refused before flash is looked at, if it is. -/
def doneRefusal? (chip : NorFlash σ) (e : Engine page) : Option UpdateError :=
  if e.halted then some .halted
  else if chip.eraseSize ≠ page then some (.eraseUnit page chip.eraseSize)
  else if e.session.activity ≠ .idle then some .busy
  else if e.session.verdict ≠ .matched then some .unverified
  else none

theorem doneRefusal?_eq_none_iff :
    e.doneRefusal? chip = none ↔
      ¬e.halted ∧ chip.eraseSize = page ∧ e.session.activity = .idle ∧
        e.session.verdict = .matched := by
  unfold doneRefusal?
  split
  · simp_all
  · split
    · simp_all
    · split
      · simp_all
      · split <;> simp_all

/-- `done` is refused at once, or the record is looked at. -/
theorem receive_done {flash : σ} {packet : Packet} {p : ControlPacket}
    (hp : packet.command? = some p) (hcommand : p.command = .done)
    {Q : Except UpdateError Unit → Board σ → Prop}
    (hrefused : ∀ err, e.doneRefusal? chip = some err → Q (.error err) { flash })
    (htaken : e.doneRefusal? chip = none →
      (Confirmation.run chip config.appBase).Yields { flash } (fun _ board => Q (.ok ()) board)
        fun err board => Q (.error err) board) :
    (receive config chip now packet).Yields (e, { flash }) (fun _ st => Q (.ok ()) st.2)
      fun err st => Q (.error err) st.2 := by
  refine yields_receive.mpr ⟨fun hhalted => ?_, fun hrunning hunit => ?_, fun hrunning hunit => ?_⟩
  · exact hrefused _ (by simp [doneRefusal?, hhalted])
  · exact hrefused _ (by simp [doneRefusal?, hrunning, hunit])
  · rw [handle_of_command hp, execute, hcommand, yields_confirmImage]
    refine ⟨fun hbusy => ?_, fun hidle => ⟨fun hverdict => ?_, fun hverdict => ?_⟩⟩
    · exact hrefused _ (by simp [doneRefusal?, hrunning, hunit, hbusy])
    · exact hrefused _ (by simp [doneRefusal?, hrunning, hunit, hidle, hverdict])
    · exact htaken (doneRefusal?_eq_none_iff.mpr ⟨hrunning, hunit, hidle, hverdict⟩)

end Engine

namespace Snapshot

theorem exchange_done (h : (s.exchange config chip a).Asks .done)
    {Q : Except UpdateError Unit → Board σ → Prop}
    (hrefused : ∀ err, s.engine.doneRefusal? chip = some err →
      Q (.error err) { flash := s.flash })
    (htaken : s.engine.doneRefusal? chip = none →
      (Confirmation.run chip config.appBase).Yields { flash := s.flash }
        (fun _ board => Q (.ok ()) board) fun err board => Q (.error err) board) :
    Q (s.exchange config chip a).answer
      { flash := (s.exchange config chip a).after.flash
        events := (s.exchange config chip a).events } := by
  obtain ⟨p, hp, hcommand⟩ := h
  rw [exchange_arrival] at hp
  apply exchange_of_yields (Q := fun answer _ board => Q answer board)
  exact Engine.receive_done hp hcommand hrefused htaken

theorem exchange_done_refused (h : (s.exchange config chip a).Asks .done) {err : UpdateError}
    (hrefusal : s.engine.doneRefusal? chip = some err) :
    (s.exchange config chip a).answer = .error err ∧
      (s.exchange config chip a).events = #[] ∧
      (s.exchange config chip a).after.flash = s.flash := by
  apply exchange_done h (Q := fun answer board =>
    answer = .error err ∧ board.events = #[] ∧ board.flash = s.flash)
  · intro err' hrefusal'
    obtain rfl : err = err' := Option.some.inj (hrefusal.symm.trans hrefusal')
    exact ⟨rfl, rfl, rfl⟩
  · intro hnone
    simp [hrefusal] at hnone

theorem exchange_done_outcome (atomic : chip.Atomic view) (sound : view.Sound s.flash)
    (h : (s.exchange config chip a).Asks .done) (hrefusal : s.engine.doneRefusal? chip = none) :
    Confirmation.Outcome (view.content s.flash) config.tagAddress #[]
      (s.exchange config chip a).answer (s.exchange config chip a).events
      (view.content (s.exchange config chip a).after.flash) := by
  apply exchange_done h (Q := fun answer board =>
    Confirmation.Outcome (view.content s.flash) config.tagAddress #[] answer board.events
      (view.content board.flash))
  · intro err herr
    simp [hrefusal] at herr
  · intro _
    exact Confirmation.run_outcome atomic (sound : view.Sound (Board.mk s.flash #[]).flash) config.appBase

/-- When `done` writes, it was let through. -/
theorem exchange_done_of_writes (h : (s.exchange config chip a).Asks .done)
    (hwrites : (s.exchange config chip a).Writes) : s.engine.doneRefusal? chip = none := by
  obtain ⟨address, bytes, failure, hmem⟩ := hwrites
  cases hrefusal : s.engine.doneRefusal? chip with
  | none => rfl
  | some err =>
      rw [(exchange_done_refused h hrefusal).2.1] at hmem
      simp at hmem

/-- In an idle engine that is not halted, `done` is answered with `unverified` exactly if the last
digest checked was not a match. -/
theorem exchange_done_unverified_iff (atomic : chip.Atomic view) (sound : view.Sound s.flash)
    (h : (s.exchange config chip a).Asks .done) (hrunning : ¬s.engine.halted)
    (hunit : chip.eraseSize = page) (hidle : s.engine.session.activity = .idle) :
    (s.exchange config chip a).answer = .error .unverified ↔
      s.engine.session.verdict ≠ .matched := by
  by_cases hverdict : s.engine.session.verdict = .matched
  · have hrefusal := Engine.doneRefusal?_eq_none_iff.mpr ⟨hrunning, hunit, hidle, hverdict⟩
    have houtcome := exchange_done_outcome atomic sound h hrefusal
    simp only [hverdict, ne_eq, not_true_eq_false, iff_false]
    intro hanswer
    rw [hanswer] at houtcome
    cases houtcome
  · have hrefusal : s.engine.doneRefusal? chip = some .unverified := by
      simp [Engine.doneRefusal?, hrunning, hunit, hidle, hverdict]
    exact ⟨fun _ => hverdict, fun _ => (exchange_done_refused h hrefusal).1⟩

/-- A digest that is accepted is the hash of what its range holds. -/
theorem exchange_digest (honest : chip.Honest view) (sound : view.Sound s.flash)
    {address size : UInt32} {bytes : Bytes} (hanswer : (s.exchange config chip a).answer = .ok ())
    (hactivity : s.engine.session.activity = .digest address size) (hpacket : a.packet = .data bytes) :
    bytes = (Sha256.hash ((view.content s.flash).peek address.toNat size.toNat)).toList := by
  apply exchange_of_accepted hanswer (Q := fun _ =>
    bytes = (Sha256.hash ((view.content s.flash).peek address.toNat size.toNat)).toList)
  rw [hpacket]
  refine Engine.yields_consume.mpr ⟨fun _ => trivial, fun _ => ?_⟩
  rw [hactivity]
  refine Engine.yields_receiveDigest (fun _ => trivial) fun expected hexpected => ?_
  rw [Engine.yields_checkDigest]
  refine (Region.digest_yields honest.truthful address size
    (sound : view.Sound (Board.mk s.flash #[]).flash)).mono ?_ fun _ _ _ => trivial
  rintro actual board ⟨hactual, _⟩
  exact ⟨fun h => by rw [hexpected, ← h, hactual], fun _ => trivial⟩

/-- Only payload and `done` change flash. -/
theorem exchange_content (honest : chip.Honest view) (sound : view.Sound s.flash)
    (hs : s.engine.Consistent) (hpayload : ¬(s.exchange config chip a).CarriesPayload)
    (hdone : ¬(s.exchange config chip a).Asks .done) :
    view.content (s.exchange config chip a).after.flash = view.content s.flash := by
  refine And.right (exchange_keeps (P := Board.Holds view (view.content s.flash)) hs
    (Board.keptByReads_holds honest.truthful.inert _) hpayload (fun h => absurd h hdone) ⟨sound, rfl⟩)

/-- While a match counts, flash stays as it is or its image becomes confirmed. -/
theorem exchange_content_of_matched (atomic : chip.Atomic view) (sound : view.Sound s.flash)
    (hs : s.engine.Consistent) (hverdict : s.engine.session.verdict = .matched) :
    view.content (s.exchange config chip a).after.flash = view.content s.flash ∨
      (view.content (s.exchange config chip a).after.flash).word config.tagAddress.toNat =
        RecordTag.confirmedWord := by
  by_cases hdone : (s.exchange config chip a).Asks .done
  · cases hrefusal : s.engine.doneRefusal? chip with
    | some err =>
        left
        rw [(exchange_done_refused hdone hrefusal).2.2]
    | none => exact (exchange_done_outcome atomic sound hdone hrefusal).content_eq_or_confirmed
  · left
    refine exchange_content atomic.toHonest sound hs ?_ hdone
    rintro ⟨_, base, length, hactivity⟩
    rw [exchange_before] at hactivity
    exact hs.unmatched hactivity hverdict

end Snapshot

/-! ### The check behind a match -/

/-- The history has a check that matched, with nothing after it that takes the match back, and from
the check to its end flash held `content`, whose digest was the one accepted. -/
def HoldsSinceCheck (view : NorFlash.View σ) (history : List (Exchange page σ))
    (content : FlashContent) : Prop :=
  ∃ earlier check since address size digest,
    history = earlier ++ check :: since ∧
      check.Matches address size digest ∧
      digest = Sha256.hash (content.peek address.toNat size.toNat) ∧
      (∀ x ∈ since, x.mark = none) ∧
      ∀ x ∈ check :: since, view.content x.before.flash = content

theorem HoldsSinceCheck.concat {history : List (Exchange page σ)} {content : FlashContent}
    (h : HoldsSinceCheck view history content) {x : Exchange page σ} (hmark : x.mark = none)
    (hcontent : view.content x.before.flash = content) :
    HoldsSinceCheck view (history ++ [x]) content := by
  obtain ⟨earlier, check, since, address, size, digest, rfl, hmatches, hdigest, hmarks, hheld⟩ := h
  refine ⟨earlier, check, since ++ [x], address, size, digest, by simp, hmatches, hdigest, ?_, ?_⟩
  · intro y hy
    rcases List.mem_append.mp hy with hy | hy
    · exact hmarks y hy
    · rw [List.mem_singleton.mp hy]
      exact hmark
  · intro y hy
    rw [← List.cons_append] at hy
    rcases List.mem_append.mp hy with hy | hy
    · exact hheld y hy
    · rw [List.mem_singleton.mp hy]
      exact hcontent

namespace Snapshot

/-- A match stands for a check of what flash still holds, unless the image is confirmed by now. -/
theorem run_holdsSinceCheck (atomic : chip.Atomic view) (sound : view.Sound s.flash)
    (hs : s.engine.Consistent) (hunmatched : s.engine.session.verdict ≠ .matched)
    (as : List Arrival) :
    (s.run config chip as).engine.session.verdict = .matched →
      HoldsSinceCheck view (s.exchanges config chip as) (view.content (s.run config chip as).flash) ∨
        (view.content (s.run config chip as).flash).word config.tagAddress.toNat =
          RecordTag.confirmedWord := by
  induction as using List.reverseRecOn with
  | nil => exact fun h => absurd h hunmatched
  | append_singleton as a ih =>
      have hsound : view.Sound (s.run config chip as).flash := run_sound atomic sound as
      have hconsistent : (s.run config chip as).engine.Consistent := run_consistent hs as
      rw [run_concat, exchanges_concat, exchange_verdict, Verdict.marked_eq_matched_iff]
      rintro (hmark | ⟨hmark, hverdict⟩)
      · obtain ⟨address, size, bytes, hanswer, hactivity, hpacket⟩ := Exchange.mark_eq_matched hmark
        rw [exchange_before] at hactivity
        rw [exchange_arrival] at hpacket
        have hbytes := exchange_digest atomic.toHonest hsound hanswer hactivity hpacket
        have hcontent :
            view.content ((s.run config chip as).exchange config chip a).after.flash =
              view.content (s.run config chip as).flash :=
          exchange_content atomic.toHonest hsound hconsistent
            (by simp [Exchange.CarriesPayload, hactivity])
            (by simp [Exchange.Asks, hpacket, Packet.command?])
        left
        refine ⟨_, _, [], address, size, _, rfl, ⟨hanswer, ?_, ?_⟩, rfl, by simp, ?_⟩
        · rw [exchange_before]
          exact hactivity
        · rw [exchange_arrival, hcontent, hpacket, hbytes]
        · simp [hcontent]
      · obtain hcontent | hconfirmed :
            view.content ((s.run config chip as).exchange config chip a).after.flash =
                view.content (s.run config chip as).flash ∨
              (view.content ((s.run config chip as).exchange config chip a).after.flash).word
                config.tagAddress.toNat = RecordTag.confirmedWord :=
          exchange_content_of_matched atomic hsound hconsistent hverdict
        · rw [hcontent]
          refine (ih hverdict).imp (fun h => h.concat hmark ?_) id
          rw [exchange_before]
        · exact Or.inr hconfirmed

/-- `done` writes only over a provisional tag, in an idle engine, and only if flash is byte for byte
what it was when a digest over it was last checked and matched, and nothing has taken that match
back. In an idle engine that is not halted it answers `unverified` exactly if the last exchange that
bears on the verdict was not such a match. -/
theorem done_writes_only_over_checked_flash (config : Config) (chip : NorFlash σ)
    (view : NorFlash.View σ) (atomic : chip.Atomic view) (flash : σ) (sound : view.Sound flash)
    (past : List Arrival) (a : Arrival)
    (hdone : (((⟨{}, flash⟩ : Snapshot page σ).run config chip past).exchange config chip a).Asks
      .done) :
    let start : Snapshot page σ := ⟨{}, flash⟩
    let s := start.run config chip past
    ((s.exchange config chip a).Writes →
      s.engine.session.activity = .idle ∧
        (view.content s.flash).word config.tagAddress.toNat = RecordTag.provisionalWord ∧
        HoldsSinceCheck view (start.exchanges config chip past) (view.content s.flash)) ∧
    (¬s.engine.halted → s.engine.session.activity = .idle → chip.eraseSize = page →
      ((s.exchange config chip a).answer = .error .unverified ↔
        ((start.exchanges config chip past).filterMap Exchange.mark).getLast? ≠ some .matched)) := by
  intro start s
  have hconsistent : start.engine.Consistent := Engine.consistent_fresh
  have hunmatched : start.engine.session.verdict ≠ .matched := by simp [start]
  have hsound : view.Sound s.flash := run_sound atomic sound past
  constructor
  · intro hwrites
    have hrefusal := exchange_done_of_writes hdone hwrites
    have houtcome := exchange_done_outcome atomic hsound hdone hrefusal
    obtain ⟨_, _, _, hmem⟩ := hwrites
    have htag := houtcome.provisional_of_write hmem
    obtain ⟨_, _, hidle, hverdict⟩ := Engine.doneRefusal?_eq_none_iff.mp hrefusal
    refine ⟨hidle, htag, ?_⟩
    rcases run_holdsSinceCheck atomic sound hconsistent hunmatched past hverdict with h | hconfirmed
    · exact h
    · exact absurd (htag.symm.trans hconfirmed) (by decide)
  · intro hrunning hidle hunit
    rw [exchange_done_unverified_iff atomic hsound hdone hrunning hunit hidle]
    exact not_congr (run_verdict_eq_matched_iff hunmatched past)

end Snapshot

theorem SmallDevice.done_writes : (next check done).Writes := by
  have hevents : (next check done).events =
      #[.flash (Confirmation.tagRead 32) none, .flash (Confirmation.tagWrite 32) none,
        .flash (Confirmation.tagRead 32) none] := by decide +kernel
  refine ⟨32, LittleEndian.encode32 RecordTag.confirmedWord, none, ?_⟩
  rw [hevents]
  simp [Confirmation.tagWrite]

open SmallDevice in
theorem done_writes_only_over_checked_flash_small :
    (next check done).Writes ∧
      HoldsSinceCheck FlashMemory.view (history check)
        (FlashMemory.view.content (SmallDevice.run check).flash) := by
  have h := Snapshot.done_writes_only_over_checked_flash SmallDevice.config SmallDevice.chip
    FlashMemory.view (FlashMemory.chip_atomic 16) SmallDevice.flash flash_sound check done
    (asks_done check)
  exact ⟨done_writes, (h.1 done_writes).2.2⟩

end FirmwareUpdate
