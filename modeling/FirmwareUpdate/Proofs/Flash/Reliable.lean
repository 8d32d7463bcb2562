import FirmwareUpdate.Proofs.Flash.Memory
import FirmwareUpdate.Proofs.Position

/-!
# A chip that does not fail

A reliable chip carries out every call on the units of a range, and no call makes it fail later. During a
transfer of whole blocks no call is refused then, since the units are whole blocks too.
-/

namespace FirmwareUpdate

variable {page : Nat} {σ α : Type} {chip : NorFlash σ} {Intact : σ → Prop}

/-- As long as the chip is intact, calls on the units of the range from `base` up to `limit` succeed,
and the units end within the address space. -/
structure NorFlash.Reliable (chip : NorFlash σ) (page base limit : Nat) (Intact : σ → Prop) : Prop where
  kept : Board.KeptByCalls chip fun board => Intact board.flash
  ends : ∀ {unit}, IsUnitOf page base limit unit → unit + page < UInt32.size
  read : ∀ {unit : UInt32} {flash}, IsUnitOf page base limit unit.toNat → Intact flash →
    ∃ bytes flash', (chip.read unit page).run flash = .ok bytes flash'
  erase : ∀ {unit stop : UInt32} {flash}, IsUnitOf page base limit unit.toNat →
    stop.toNat = unit.toNat + page → Intact flash →
      ∃ a flash', (chip.erase unit stop).run flash = .ok a flash'
  write : ∀ {unit : UInt32} {bytes : Bytes} {flash}, IsUnitOf page base limit unit.toNat →
    bytes.length = page → Intact flash →
      ∃ a flash', (chip.write unit bytes).run flash = .ok a flash'

namespace NorFlash.Reliable

open Attempt

variable {base limit : Nat} {board : Board σ}

/-- A call that succeeds is recorded, and leaves the chip intact. -/
theorem yields_call {record : FlashCall} {attempt : EStateM FlashError σ α}
    (hkept : (Board.call record attempt).Keeps fun board => Intact board.flash)
    (hsucceeds : ∃ a flash, attempt.run board.flash = .ok a flash) (hintact : Intact board.flash) :
    (Board.call record attempt).Yields board
      (fun _ board' => Intact board'.flash ∧ board'.events = board.events.push (.flash record none))
      fun _ _ => False := by
  have hrecorded : (Board.call record attempt).Yields board
      (fun _ board' => board'.events = board.events.push (.flash record none))
      fun _ _ => False := by
    refine Board.yields_call (fun _ _ _ => rfl) fun e flash hrun => ?_
    obtain ⟨a, flash', hok⟩ := hsucceeds
    rw [hok] at hrun
    cases hrun
  exact ((hkept board hintact).and hrecorded).mono (fun _ _ h => h) fun _ _ h => h.2

/-- During a transfer of whole blocks in the range no call on a unit is refused. -/
theorem tracks (h : chip.Reliable page base limit Intact) (hpage : page % Block.size = 0)
    {start stop : Nat} (hlow : base ≤ start) (hhigh : stop ≤ limit)
    (hstart : start % Block.size = 0) (hstop : stop % Block.size = 0) {Quiet : Array Event → Prop}
    (hquiet : ∀ events call, Quiet events → Quiet (events.push (.flash call none))) :
    Board.Tracks chip page start stop (fun _ board => Intact board.flash ∧ Quiet board.events)
      (fun _ _ _ _ => False) where
  read {unit _ board} hunit hP := by
    refine (yields_call (h.kept.read unit page) (h.read (hunit.mono hlow hhigh) hP.1) hP.1).mono
      (fun _ board' hst => ?_) fun _ _ h => h
    refine ⟨hst.1, ?_⟩
    rw [hst.2]
    exact hquiet _ _ hP.2
  program {u end' board} hunit hend hP := by
    have hwithin := hunit.mono hlow hhigh
    rw [Assembly.yields_reprogram]
    refine (yields_call (h.kept.erase u.base end') (h.erase hwithin hend hP.1) hP.1).mono
      (fun _ board' herased => ?_) fun _ _ h => h
    refine (yields_call (h.kept.write u.base u.bytes.toList) (h.write hwithin (by simp) herased.1)
      herased.1).mono (fun _ board'' hwritten => ?_) fun _ _ h => h
    refine ⟨hwritten.1, ?_⟩
    rw [hwritten.2, herased.2]
    exact hquiet _ _ (hquiet _ _ hP.2)
  unaligned {unit _ _ _} hunit hpart _ := by
    have hblocks : unit % Block.size = 0 :=
      Nat.mod_eq_zero_of_dvd (Nat.dvd_trans (Nat.dvd_of_mod_eq_zero hpage) hunit.aligned)
    simp only [Block.size] at hpage hstart hstop hblocks hpart
    omega
  beyond hunit hbeyond _ := by
    have hends := h.ends (hunit.mono hlow hhigh)
    omega

end NorFlash.Reliable

/-! ### Flash in memory -/

namespace FlashMemory

open Attempt

variable {m : FlashMemory} {base limit : Nat}

/-- The memory holds every unit of the range. -/
def Covers (m : FlashMemory) (page base limit : Nat) : Prop :=
  ∀ unit, IsUnitOf page base limit unit → m.base ≤ unit ∧ unit + page ≤ m.base + m.bytes.size

/-- No fault lies in wait, and the memory holds every unit of the range. -/
def Works (page base limit : Nat) (m : FlashMemory) : Prop :=
  m.faults = [] ∧ m.Covers page base limit

theorem Works.changeWith (h : m.Works page base limit) {change : UInt8 → UInt8 → UInt8}
    {address : Nat} {bytes : Bytes} : (m.changeWith change address bytes).Works page base limit := by
  refine ⟨by rw [faults_changeWith, h.1], fun unit hunit => ?_⟩
  rw [base_changeWith, size_changeWith]
  exact h.2 unit hunit

/-- Without faults a call is refused for its range, or carried out. -/
theorem Works.attempt_eq (h : m.Works page base limit) {kind : CallKind} {unit start stop : Nat}
    {ignored : α} {carryOut : EStateM FlashError FlashMemory α} :
    (attempt kind unit start stop ignored carryOut).run m =
      match m.refusal? unit start stop with
      | some error => .error error m
      | none => carryOut m :=
  attempt_faultless h.1

/-- A call leaves the memory working if carrying it out does. -/
theorem keeps_works {kind : CallKind} {unit start stop : Nat} {ignored : α}
    {carryOut : EStateM FlashError FlashMemory α} {record : FlashCall}
    (hcarry : ∀ m, m.Works page base limit → ∃ a m', carryOut m = .ok a m' ∧ m'.Works page base limit) :
    (Board.call record (attempt kind unit start stop ignored carryOut)).Keeps
      fun board => board.flash.Works page base limit := by
  intro board h
  obtain ⟨a, m, hcarried, hworks⟩ := hcarry board.flash h
  refine Board.yields_call (fun a' m' hrun => ?_) fun e m' hrun => ?_
  · rw [h.attempt_eq, hcarried] at hrun
    split at hrun
    · cases hrun
    · cases hrun
      exact hworks
  · rw [h.attempt_eq, hcarried] at hrun
    split at hrun
    · cases hrun
      exact h
    · cases hrun

/-- A range of whole units of a call that lies inside the memory is not refused. -/
theorem refusal?_of_range {unit start stop : Nat} (hstart : start % unit = 0)
    (hlength : (stop - start) % unit = 0) (hlow : m.base ≤ start) (hle : start ≤ stop)
    (hhigh : stop ≤ m.base + m.bytes.size) : m.refusal? unit start stop = none := by
  rw [refusal?, if_neg (by omega), if_pos ⟨hlow, hle, hhigh⟩]

theorem Works.succeeds (h : m.Works page base limit) {kind : CallKind} {unit start stop : Nat}
    {ignored : α} {carryOut : EStateM FlashError FlashMemory α}
    (hrange : m.refusal? unit start stop = none) (hcarry : ∃ a m', carryOut m = .ok a m') :
    ∃ a m', (attempt kind unit start stop ignored carryOut).run m = .ok a m' := by
  rw [h.attempt_eq, hrange]
  exact hcarry

/-- Flash in memory without faults is reliable for the units that it holds. -/
theorem chip_reliable (hpage : page % Block.size = 0)
    (hends : ∀ unit, IsUnitOf page base limit unit → unit + page < UInt32.size) :
    (FlashMemory.chip page).Reliable page base limit (Works page base limit) where
  kept :=
    { read := fun _ _ => keeps_works fun m h => ⟨_, m, rfl, h⟩
      emit := fun _ _ => Board.keeps_emit fun _ h => h
      erase := fun _ _ => keeps_works fun _ h => ⟨_, _, rfl, h.changeWith⟩
      write := fun _ _ => keeps_works fun _ h => ⟨_, _, rfl, h.changeWith⟩ }
  ends := hends _
  read {unit m} hunit h := by
    obtain ⟨hlow, hhigh⟩ := h.2 _ hunit
    exact h.succeeds (refusal?_of_range (by omega) (by omega) hlow (by omega) hhigh) ⟨_, _, rfl⟩
  erase {unit stop m} hunit hstop h := by
    obtain ⟨hlow, hhigh⟩ := h.2 _ hunit
    have hstart : unit.toNat % page = 0 := Nat.mod_eq_zero_of_dvd hunit.aligned
    have hlength : stop.toNat - unit.toNat = page := by omega
    exact h.succeeds (refusal?_of_range hstart (by rw [hlength, Nat.mod_self]) hlow (by omega)
      (by omega)) ⟨_, _, rfl⟩
  write {unit bytes m} hunit hlength h := by
    obtain ⟨hlow, hhigh⟩ := h.2 _ hunit
    have hstart : unit.toNat % Block.size = 0 :=
      Nat.mod_eq_zero_of_dvd (Nat.dvd_trans (Nat.dvd_of_mod_eq_zero hpage) hunit.aligned)
    simp only [Block.size] at hpage hstart
    exact h.succeeds (refusal?_of_range (by omega) (by omega) hlow (by omega) (by omega)) ⟨_, _, rfl⟩

end FlashMemory

end FirmwareUpdate
