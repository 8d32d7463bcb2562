import FirmwareUpdate.Digest.Region
import FirmwareUpdate.Proofs.Board

/-!
# The digest of what flash holds

Appending a message in two runs is appending it in one, so the digest of a range is the hash of the
content of the range however flash is read.
-/

namespace FirmwareUpdate

namespace Sha256

theorem compressBlocks_add (m n : Nat) (s : State) (bytes : Bytes) :
    compressBlocks (m + n) s bytes =
      compressBlocks n (compressBlocks m s bytes) (bytes.drop (m * blockSize)) := by
  induction m generalizing s bytes with
  | zero => simp [compressBlocks]
  | succ m ih =>
      have hdrop : blockSize + m * blockSize = (m + 1) * blockSize := by
        simp only [blockSize]
        omega
      rw [Nat.add_right_comm, compressBlocks, ih, compressBlocks, List.drop_drop, hdrop]

/-- Whole blocks are compressed alike whatever follows them. -/
theorem compressBlocks_append (m : Nat) (s : State) {bytes : Bytes} (more : Bytes)
    (h : m * blockSize ≤ bytes.length) :
    compressBlocks m s (bytes ++ more) = compressBlocks m s bytes := by
  induction m generalizing s bytes with
  | zero => rfl
  | succ m ih =>
      simp only [blockSize] at h
      have hblock : blockSize ≤ bytes.length := by simp only [blockSize]; omega
      have hrest : m * blockSize ≤ (bytes.drop blockSize).length := by
        simp only [blockSize, List.length_drop]
        omega
      rw [compressBlocks, compressBlocks, List.take_append_of_le_length hblock,
        List.drop_append_of_le_length hblock, ih _ hrest]

theorem Hasher.update_update (hasher : Hasher) (xs ys : Bytes) :
    (hasher.update xs).update ys = hasher.update (xs ++ ys) := by
  have hcount : (hasher.rest ++ (xs ++ ys)).length / blockSize =
      (hasher.rest ++ xs).length / blockSize +
        ((hasher.rest ++ xs).drop ((hasher.rest ++ xs).length / blockSize * blockSize) ++
          ys).length / blockSize := by
    simp only [List.length_append, List.length_drop, blockSize]
    omega
  have hfits : (hasher.rest ++ xs).length / blockSize * blockSize ≤
      (hasher.rest ++ xs).length := Nat.div_mul_le_self _ _
  simp only [update, hcount]
  simp only [← List.append_assoc, Hasher.mk.injEq]
  refine ⟨?_, ?_, ?_⟩
  · rw [compressBlocks_add, compressBlocks_append _ _ _ hfits, List.drop_append_of_le_length hfits]
  · rw [Nat.add_mul, ← List.drop_drop, List.drop_append_of_le_length hfits]
  · simp [Nat.add_assoc]

end Sha256

namespace Region

open Attempt

variable {σ : Type} {chip : NorFlash σ} {view : NorFlash.View σ} {board : Board σ}

/-! ### How flash is read -/

/-- The addresses from one up to another are read in order, each once, in pieces of at most 64 bytes. -/
inductive Sweeps (stop : Nat) : Nat → List Event → Prop
  | nil : Sweeps stop stop []
  | cons {start : UInt32} {length : Nat} {events : List Event} (hpos : 0 < length)
      (hpiece : length ≤ pieceSize) (hrest : Sweeps stop (start.toNat + length) events) :
      Sweeps stop start.toNat (.flash (.read start length) none :: events)

/-- The addresses from one up to another are read so until a read of them fails with `e`. -/
inductive BreaksOff (stop : Nat) (e : FlashError) : Nat → List Event → Prop
  | failed {start : UInt32} {length : Nat} (hpos : 0 < length) (hpiece : length ≤ pieceSize)
      (hinside : start.toNat + length ≤ stop) :
      BreaksOff stop e start.toNat [.flash (.read start length) (some e)]
  | cons {start : UInt32} {length : Nat} {events : List Event} (hpos : 0 < length)
      (hpiece : length ≤ pieceSize) (hrest : BreaksOff stop e (start.toNat + length) events) :
      BreaksOff stop e start.toNat (.flash (.read start length) none :: events)

theorem hashFrom_sweeps (chip : NorFlash σ) (hasher : Sha256.Hasher) (address : UInt32)
    (remaining : Nat) (hfits : address.toNat + remaining < UInt32.size) :
    (hashFrom chip hasher address remaining).Yields board
      (fun _ board' => ∃ events, board'.events = board.events ++ events.toArray ∧
        Sweeps (address.toNat + remaining) address.toNat events)
      fun err board' => ∃ e events, err = .flash e ∧ board'.events = board.events ++ events.toArray ∧
        BreaksOff (address.toNat + remaining) e address.toNat events := by
  induction remaining using Nat.strongRecOn generalizing hasher address board with
  | ind remaining ih =>
      rw [hashFrom]
      split
      · next h =>
          subst h
          exact ⟨[], by simp, Sweeps.nil⟩
      · next h =>
          have hpiece : min pieceSize remaining ≤ pieceSize := Nat.min_le_left _ _
          have hpos : 0 < min pieceSize remaining := by
            simp only [pieceSize]
            omega
          have hnext : (address + UInt32.ofNat (min pieceSize remaining)).toNat =
              address.toNat + min pieceSize remaining := Address.toNat_add_ofNat (by omega)
          have hstop : address.toNat + min pieceSize remaining +
              (remaining - min pieceSize remaining) = address.toNat + remaining := by omega
          rw [yields_bind]
          refine Board.yields_call (fun piece flash _ => ?_) fun e flash _ => ?_
          · refine (ih (remaining - min pieceSize remaining) (by omega) _ _ (by omega)).mono ?_ ?_
            · rintro _ board' ⟨events, hevents, hsweeps⟩
              rw [hnext, hstop] at hsweeps
              exact ⟨_, by simp [hevents], hsweeps.cons hpos hpiece⟩
            · rintro _ board' ⟨e, events, rfl, hevents, hbreaks⟩
              rw [hnext, hstop] at hbreaks
              exact ⟨e, _, rfl, by simp [hevents], hbreaks.cons hpos hpiece⟩
          · exact ⟨e, _, rfl, by simp, BreaksOff.failed hpos hpiece (by omega)⟩

/-- Taking a digest fails at once if the range leaves the address space, and else with the first read
that fails. -/
theorem digest_sweeps (chip : NorFlash σ) (address size : UInt32) :
    (digest chip address size).Yields board
      (fun _ board' => address.toNat + size.toNat < UInt32.size ∧
        ∃ events, board'.events = board.events ++ events.toArray ∧
          Sweeps (address.toNat + size.toNat) address.toNat events)
      fun err board' =>
        (UInt32.size ≤ address.toNat + size.toNat ∧ err = .flash .outOfBounds ∧
          board'.events = board.events) ∨
        (address.toNat + size.toNat < UInt32.size ∧
          ∃ e events, err = .flash e ∧ board'.events = board.events ++ events.toArray ∧
            BreaksOff (address.toNat + size.toNat) e address.toNat events) := by
  unfold digest
  split
  · next h => exact Or.inl ⟨Address.add?_eq_none_iff.mp h, rfl, rfl⟩
  · next stop h =>
      have hfits : address.toNat + size.toNat < UInt32.size := by
        rw [Address.add?_eq_some_iff.mp h]
        exact stop.toNat_lt
      rw [yields_bind]
      exact (hashFrom_sweeps chip _ address size.toNat hfits).mono
        (fun _ _ hst => ⟨hfits, hst⟩) fun _ _ hst => Or.inr ⟨hfits, hst⟩

/-- Taking a digest fails only because flash does. -/
theorem digest_refuses_flash (chip : NorFlash σ) (address size : UInt32) :
    (digest chip address size).Yields board (fun _ _ => True)
      fun err _ => ∃ failure, err = .flash failure := by
  refine (digest_sweeps chip address size).mono (fun _ _ _ => trivial) ?_
  rintro err _ (⟨-, rfl, -⟩ | ⟨-, e, -, rfl, -⟩)
  · exact ⟨_, rfl⟩
  · exact ⟨_, rfl⟩

/-! ### What is hashed -/

/-- Hashing a range after some bytes is hashing those bytes and the content of the range. It fails only
where a read of the range can. -/
theorem hashFrom_yields (truthful : chip.Truthful view) (seen : Bytes) (address : UInt32)
    (remaining : Nat) (hfits : address.toNat + remaining < UInt32.size)
    (sound : view.Sound board.flash) :
    (hashFrom chip (({} : Sha256.Hasher).update seen) address remaining).Yields board
      (fun hasher board' =>
        hasher = ({} : Sha256.Hasher).update
            (seen ++ (view.content board.flash).peek address.toNat remaining) ∧
          view.content board'.flash = view.content board.flash)
      fun _ board' => view.content board'.flash = view.content board.flash ∧
        ¬chip.ReadsOut view address.toNat (address.toNat + remaining) := by
  induction remaining using Nat.strongRecOn generalizing seen address board with
  | ind remaining ih =>
      rw [hashFrom]
      split
      · next h =>
          subst h
          simp [FlashContent.peek]
      · next h =>
          rw [yields_bind]
          have hpiece : (address + UInt32.ofNat (min pieceSize remaining)).toNat =
              address.toNat + min pieceSize remaining := by
            exact Address.toNat_add_ofNat (by omega)
          have hsmaller : remaining - min pieceSize remaining < remaining := by
            simp only [pieceSize]
            omega
          refine Board.yields_call (fun bytes flash hrun => ?_) fun e flash hrun => ?_
          · obtain ⟨hsound, hcontent, hbytes⟩ := truthful.read_ok sound hrun
            rw [Sha256.Hasher.update_update]
            have hnext : (address + UInt32.ofNat (min pieceSize remaining)).toNat +
                (remaining - min pieceSize remaining) < UInt32.size := by omega
            apply (ih _ hsmaller (seen ++ bytes.toList) _ hnext hsound).mono
            · rintro hasher board' ⟨rfl, hsame⟩
              refine ⟨?_, hsame.trans hcontent⟩
              have hsplit : remaining =
                  min pieceSize remaining + (remaining - min pieceSize remaining) := by omega
              rw [hpiece, hbytes, hcontent, List.append_assoc, ← FlashContent.peek_append, ← hsplit]
            · rintro _ board' ⟨hsame, hreads⟩
              refine ⟨hsame.trans hcontent, fun hall => hreads ?_⟩
              exact fun start length flash hsound hlow hhigh =>
                hall start length flash hsound (by omega) (by omega)
          · refine ⟨(truthful.read_error sound hrun).2, fun hall => ?_⟩
            obtain ⟨_, _, hok⟩ := hall address (min pieceSize remaining) _ sound (Nat.le_refl _)
              (by omega)
            cases hok.symm.trans hrun

/-- The digest of a range is the hash of its content, and taking it changes nothing. -/
theorem digest_yields (truthful : chip.Truthful view) (address size : UInt32)
    (sound : view.Sound board.flash) :
    (digest chip address size).Yields board
      (fun digest board' =>
        digest = Sha256.hash ((view.content board.flash).peek address.toNat size.toNat) ∧
          view.content board'.flash = view.content board.flash)
      fun _ board' => view.content board'.flash = view.content board.flash ∧
        (address.toNat + size.toNat < UInt32.size →
          ¬chip.ReadsOut view address.toNat (address.toNat + size.toNat)) := by
  unfold digest
  split
  · next h => exact ⟨rfl, fun hfits => absurd hfits (Nat.not_lt.mpr (Address.add?_eq_none_iff.mp h))⟩
  · next h =>
      have hfits := Address.add?_eq_some_iff.mp h
      rw [yields_bind]
      refine (hashFrom_yields truthful [] address size.toNat ?_ sound).mono ?_
        fun _ _ hst => ⟨hst.1, fun _ => hst.2⟩
      · rw [hfits]
        exact UInt32.toNat_lt_size _
      · rintro hasher board' ⟨rfl, hsame⟩
        exact ⟨rfl, hsame⟩

end Region

end FirmwareUpdate
