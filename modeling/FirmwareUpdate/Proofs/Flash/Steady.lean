import FirmwareUpdate.Proofs.Flash.Memory

/-!
# A chip without failures of its own

A steady chip may refuse calls, for a range outside it say, but what it refuses does not depend on what
it holds nor on what happened before. Flash in memory without faults is steady.
-/

namespace FirmwareUpdate

variable {σ α : Type}

namespace NorFlash

/-- A call that fails in one sound state fails in each of them, for the same reason. -/
def View.FailsAlike (view : View σ) (attempt : EStateM FlashError σ α) : Prop :=
  ∀ {flash flash' e left}, view.Sound flash → view.Sound flash' →
    attempt.run flash = .error e left → ∃ left', attempt.run flash' = .error e left'

/-- Calls that fail change nothing, and whether a call fails is settled by its range. -/
structure Steady (chip : NorFlash σ) (view : View σ) : Prop extends Atomic chip view where
  read_alike : ∀ address length, view.FailsAlike (chip.read address length)
  erase_alike : ∀ start stop, view.FailsAlike (chip.erase start stop)
  write_alike : ∀ address bytes, view.FailsAlike (chip.write address bytes)

variable {view : View σ} {attempt : EStateM FlashError σ α} {flash flash' left : σ} {a : α}

/-- A call that succeeds in one sound state succeeds in each of them. -/
theorem View.FailsAlike.succeeds (h : view.FailsAlike attempt) (sound : view.Sound flash)
    (sound' : view.Sound flash') (hrun : attempt.run flash = .ok a left) :
    ∃ a' left', attempt.run flash' = .ok a' left' := by
  cases hrun' : attempt.run flash' with
  | ok a' left' => exact ⟨a', left', rfl⟩
  | error e left' =>
      obtain ⟨left'', hfails⟩ := h sound' sound hrun'
      rw [hrun] at hfails
      cases hfails

end NorFlash

namespace FlashMemory

variable {base size eraseSize : Nat} {m : FlashMemory}

/-- The memory read as flash; it is what it seems to be if it has a given place and no fault lies in
wait. -/
def faultlessView (base size : Nat) : NorFlash.View FlashMemory where
  content := byteAt
  Sound m := m.faults = [] ∧ m.base = base ∧ m.bytes.size = size

theorem faultless_sound (h : (faultlessView base size).Sound m) : view.Sound m := by
  intro fault hfault
  rw [h.1] at hfault
  simp at hfault

theorem faultless_changeWith (h : (faultlessView base size).Sound m)
    {change : UInt8 → UInt8 → UInt8} {address : Nat} {bytes : Bytes} :
    (faultlessView base size).Sound (m.changeWith change address bytes) := by
  obtain ⟨hfaults, hbase, hsize⟩ := h
  exact ⟨by rw [faults_changeWith, hfaults], by rw [base_changeWith, hbase],
    by rw [size_changeWith, hsize]⟩

variable {kind : CallKind} {unit start stop : Nat} {ignored : α}
variable {carryOut : EStateM FlashError FlashMemory α} {e : FlashError} {m' : FlashMemory}

/-- A call that fails was refused for its range, and changed nothing. -/
theorem refused_of_error (h : m.faults = []) (hcarry : ∀ m e m', carryOut m ≠ .error e m')
    (hrun : (attempt kind unit start stop ignored carryOut).run m = .error e m') :
    m.refusal? unit start stop = some e ∧ m' = m := by
  rw [attempt_faultless h] at hrun
  split at hrun
  · next hrefusal =>
      cases hrun
      exact ⟨hrefusal, rfl⟩
  · exact absurd hrun (hcarry m e m')

theorem failsAlike (hcarry : ∀ m e m', carryOut m ≠ .error e m') :
    (faultlessView base size).FailsAlike (attempt kind unit start stop ignored carryOut) := by
  intro m m' e left hm hm' hrun
  have hrefusal := (refused_of_error hm.1 hcarry hrun).1
  have hsame : m'.refusal? unit start stop = m.refusal? unit start stop := by
    rw [refusal?, refusal?, hm.2.1, hm.2.2, hm'.2.1, hm'.2.2]
  refine ⟨m', ?_⟩
  rw [attempt_faultless hm'.1, hsame, hrefusal]

/-- Flash in memory without faults is steady, whatever it holds. -/
theorem chip_steady (base size eraseSize : Nat) :
    (chip eraseSize).Steady (faultlessView base size) where
  read_ok sound h := by
    obtain ⟨rfl, hbytes⟩ := readOut_of_ok (sound_iff_genuine.mp (faultless_sound sound) _) h
    exact ⟨sound, rfl, hbytes⟩
  read_error sound h := by
    obtain ⟨-, rfl⟩ := refused_of_error sound.1 (by simp) h
    exact ⟨sound, rfl⟩
  erase_ok {start stop m m'} sound h := by
    obtain ⟨-, hcontent⟩ := (chip_atomic eraseSize).erase_ok (faultless_sound sound) h
    obtain ⟨-, hcarried⟩ := carriedOut_of_ok (sound_iff_genuine.mp (faultless_sound sound) _) h
    cases hcarried
    exact ⟨faultless_changeWith sound, hcontent⟩
  erase_error sound h := by
    obtain ⟨-, rfl⟩ := refused_of_error sound.1 (by simp) h
    exact sound
  erase_error_content sound h := by
    obtain ⟨-, rfl⟩ := refused_of_error sound.1 (by simp) h
    rfl
  write_ok {address bytes m m'} sound h := by
    obtain ⟨-, hcontent⟩ := (chip_atomic eraseSize).write_ok (faultless_sound sound) h
    obtain ⟨-, hcarried⟩ := carriedOut_of_ok (sound_iff_genuine.mp (faultless_sound sound) _) h
    cases hcarried
    exact ⟨faultless_changeWith sound, hcontent⟩
  write_error sound h := by
    obtain ⟨-, rfl⟩ := refused_of_error sound.1 (by simp) h
    exact sound
  write_error_content sound h := by
    obtain ⟨-, rfl⟩ := refused_of_error sound.1 (by simp) h
    rfl
  read_alike _ _ := failsAlike (by simp)
  erase_alike _ _ := failsAlike (by simp)
  write_alike _ _ := failsAlike (by simp)

/-- Flash in memory without faults can be read wherever it has bytes. -/
theorem chip_readsOut (hstart : base ≤ start) (hstop : stop ≤ base + size) :
    (chip eraseSize).ReadsOut (faultlessView base size) start stop := by
  rintro address length m ⟨hfaults, hbase, hsize⟩ hlow hhigh
  have hrange : m.base ≤ address.toNat ∧ address.toNat ≤ address.toNat + length ∧
      address.toNat + length ≤ m.base + m.bytes.size := by omega
  have hallowed : m.refusal? 1 address.toNat (address.toNat + length) = none := by
    simp only [refusal?, Nat.mod_one, ne_eq, not_true_eq_false, or_self, if_false, if_pos hrange]
  refine ⟨.ofFn fun i => m.byteAt (address.toNat + i.val), m, (attempt_faultless hfaults).trans ?_⟩
  rw [hallowed]

end FlashMemory

end FirmwareUpdate
