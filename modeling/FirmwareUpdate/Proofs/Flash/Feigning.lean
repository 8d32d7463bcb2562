import FirmwareUpdate.Proofs.Flash.Memory

/-!
# A chip that may feign to program

A feigning chip reads its content out truthfully, and programming that it reports as done may have been
left undone; what fails changes nothing. Flash in memory is such a chip as long as no read is feigned.
-/

namespace FirmwareUpdate

variable {σ : Type}

/-- Reads are truthful, calls that fail change nothing, and programming that is reported as done was
done or changed nothing. -/
structure NorFlash.Feigning (chip : NorFlash σ) (view : View σ) : Prop extends Truthful chip view where
  write_ok : ∀ {address bytes flash flash'}, view.Sound flash →
    (chip.write address bytes).run flash = .ok () flash' →
      view.Sound flash' ∧ (view.content flash' = view.content flash ∨
        view.content flash' = (view.content flash).program address.toNat bytes)
  write_error : ∀ {address bytes flash e flash'}, view.Sound flash →
    (chip.write address bytes).run flash = .error e flash' →
      view.Sound flash' ∧ view.content flash' = view.content flash

namespace FlashMemory

/-- The memory read as flash; it is what it reads as unless a fault feigns a read. -/
def feigningView : NorFlash.View FlashMemory where
  content := byteAt
  Sound := Genuine .read

theorem chip_feigning (eraseSize : Nat) : (chip eraseSize).Feigning feigningView where
  read_ok sound h := by
    obtain ⟨rfl, hbytes⟩ := readOut_of_ok sound h
    exact ⟨sound, rfl, hbytes⟩
  read_error sound h :=
    ⟨genuine_of_error sound (fun _ _ => by simp) h, byteAt_of_error (fun _ _ => by simp) h⟩
  write_ok {address bytes m m'} sound h := by
    refine ⟨genuine_of_ok sound (fun _ _ hcarried => ?_) h, ?_⟩
    · cases hcarried
      exact faults_changeWith
    rcases byteAt_of_ok h with hsame | ⟨hrefusal, hcarried⟩
    · exact Or.inl hsame
    · cases hcarried
      obtain ⟨hstart, -, hstop⟩ := refusal?_eq_none hrefusal
      exact Or.inr (funext fun x => byteAt_changeWith hstart hstop x)
  write_error sound h :=
    ⟨genuine_of_error sound (fun _ _ => by simp) h, byteAt_of_error (fun _ _ => by simp) h⟩

end FlashMemory

end FirmwareUpdate
