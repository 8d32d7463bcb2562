import FirmwareUpdate.Flash.Memory
import FirmwareUpdate.Proofs.Engine.Exchange
import FirmwareUpdate.Proofs.Flash.Content

/-!
# Flash in memory is an atomic chip

As long as no fault lies in wait that reports a success which did not happen, the chip on a memory
reads its bytes out truthfully, carries out what it reports as done, and a call that fails changes
nothing.
-/

namespace FirmwareUpdate

/-- The fault that decides a call is one of its kind, and no other faults are left afterwards than lay in
wait before. -/
theorem Fault.effect_of_decide? {kind : CallKind} {start stop : Nat} {faults faults' : List Fault}
    {effect : Option FaultEffect} (h : decide? kind start stop faults = (effect, faults')) :
    (∀ e ∈ effect, ∃ fault ∈ faults, fault.kind = kind ∧ fault.effect = e) ∧
      ∀ fault ∈ faults', ∃ fault' ∈ faults,
        fault'.kind = fault.kind ∧ fault'.effect = fault.effect := by
  induction faults generalizing faults' with
  | nil =>
      cases h
      simp
  | cons fault faults ih =>
      rw [decide?] at h
      split at h
      · next hdecides =>
          cases h
          refine ⟨by simpa using Or.inl hdecides.1, ?_⟩
          intro f hf
          rcases List.mem_cons.mp hf with rfl | hf
          · exact ⟨fault, List.mem_cons_self, rfl, rfl⟩
          · exact ⟨f, List.mem_cons_of_mem _ hf, rfl, rfl⟩
      · cases h
        obtain ⟨heffect, hrest⟩ := ih rfl
        constructor
        · intro e he
          obtain ⟨f, hf, hfe⟩ := heffect e he
          exact ⟨f, List.mem_cons_of_mem _ hf, hfe⟩
        · intro f hf
          rcases List.mem_cons.mp hf with rfl | hf
          · exact ⟨f, List.mem_cons_self, rfl, rfl⟩
          · obtain ⟨g, hg, hgf⟩ := hrest f hf
            exact ⟨g, List.mem_cons_of_mem _ hg, hgf⟩

namespace FlashMemory

variable {α : Type} {m : FlashMemory}

/-- The memory read as flash; it is what it seems to be unless a fault feigns a success. -/
def view : NorFlash.View FlashMemory where
  content := byteAt
  Sound m := ∀ fault ∈ m.faults, fault.effect ≠ .ignore

theorem content_peek (address length : Nat) :
    (view.content m).peek address length = m.peek address length := rfl

theorem byteAt_modify {base address x : Nat} {bytes : Array UInt8} {faults : List Fault}
    {f : UInt8 → UInt8} (hstart : base ≤ address) (hstop : address < base + bytes.size) :
    (FlashMemory.mk base (bytes.modify (address - base) f) faults).byteAt x =
      if x = address then f ((FlashMemory.mk base bytes faults).byteAt x)
      else (FlashMemory.mk base bytes faults).byteAt x := by
  unfold byteAt
  by_cases hx : base ≤ x
  · simp only [hx, if_true, Array.getD_eq_getD_getElem?, Array.getElem?_modify]
    by_cases heq : x = address
    · subst heq
      have hlt : x - base < bytes.size := by omega
      simp [hlt]
    · have hne : address - base ≠ x - base := by omega
      simp [heq, hne]
  · have hne : x ≠ address := by omega
    simp [hx, hne]

theorem changeWith_cons {change : UInt8 → UInt8 → UInt8} {base address : Nat}
    {bytes : Array UInt8} {faults : List Fault} {b : UInt8} {bs : Bytes} :
    changeWith change ⟨base, bytes, faults⟩ address (b :: bs) =
      changeWith change ⟨base, bytes.modify (address - base) fun old => change old b, faults⟩
        (address + 1) bs := rfl

theorem byteAt_changeWith {change : UInt8 → UInt8 → UInt8} {address : Nat} {bytes : Bytes}
    (hstart : m.base ≤ address) (hstop : address + bytes.length ≤ m.base + m.bytes.size) (x : Nat) :
    (m.changeWith change address bytes).byteAt x =
      if h : address ≤ x ∧ x < address + bytes.length then
        change (m.byteAt x) bytes[x - address]
      else m.byteAt x := by
  induction bytes generalizing m address with
  | nil =>
      have hempty : ¬(address ≤ x ∧ x < address + ([] : Bytes).length) := by simp
      rw [dif_neg hempty, changeWith]
  | cons b bs ih =>
      obtain ⟨base, bytes, faults⟩ := m
      simp only [List.length_cons] at hstart hstop
      rw [changeWith_cons, ih (by simp only; omega) (by simp only [Array.size_modify]; omega),
        byteAt_modify hstart (by omega)]
      simp only [List.length_cons]
      by_cases heq : x = address
      · subst heq
        have hnext : ¬(x + 1 ≤ x ∧ x < x + 1 + bs.length) := by omega
        rw [dif_neg hnext]
        simp
      · by_cases hin : address + 1 ≤ x ∧ x < address + 1 + bs.length
        · have hwide : address ≤ x ∧ x < address + (bs.length + 1) := by omega
          have hsub : x - address = x - (address + 1) + 1 := by omega
          simp only [hin, hwide, hsub, heq, and_self, dif_pos, if_false, List.getElem_cons_succ]
        · have hwide : ¬(address ≤ x ∧ x < address + (bs.length + 1)) := by omega
          simp only [hin, hwide, heq, dif_neg, not_false_eq_true, if_false]

@[simp] theorem faults_changeWith {change : UInt8 → UInt8 → UInt8} {address : Nat} {bytes : Bytes} :
    (m.changeWith change address bytes).faults = m.faults := by
  induction bytes generalizing m address with
  | nil => rfl
  | cons b bs ih => exact ih

@[simp] theorem base_changeWith {change : UInt8 → UInt8 → UInt8} {address : Nat} {bytes : Bytes} :
    (m.changeWith change address bytes).base = m.base := by
  induction bytes generalizing m address with
  | nil => rfl
  | cons b bs ih => exact ih

@[simp] theorem size_changeWith {change : UInt8 → UInt8 → UInt8} {address : Nat} {bytes : Bytes} :
    (m.changeWith change address bytes).bytes.size = m.bytes.size := by
  induction bytes generalizing m address with
  | nil => rfl
  | cons b bs ih => exact ih.trans Array.size_modify

theorem refusal?_eq_none {unit start stop : Nat} (h : m.refusal? unit start stop = none) :
    m.base ≤ start ∧ start ≤ stop ∧ stop ≤ m.base + m.bytes.size := by
  unfold refusal? at h
  split at h
  · simp at h
  · split at h
    · next hrange => exact hrange
    · simp at h

/-- No call of the kind is feigned. -/
def Genuine (kind : CallKind) (m : FlashMemory) : Prop :=
  ∀ fault ∈ m.faults, fault.kind = kind → fault.effect ≠ .ignore

theorem sound_iff_genuine : view.Sound m ↔ ∀ kind, m.Genuine kind :=
  ⟨fun sound _ fault hfault _ => sound fault hfault, fun h fault hfault => h _ fault hfault rfl⟩

variable {kind kind' : CallKind} {unit start stop : Nat} {ignored a : α}
variable {carryOut : EStateM FlashError FlashMemory α} {e : FlashError} {m' : FlashMemory}

/-- A call that was reported as done was carried out, unless calls of its kind are feigned. -/
theorem carriedOut_of_ok (genuine : m.Genuine kind)
    (h : (attempt kind unit start stop ignored carryOut).run m = .ok a m') :
    m.refusal? unit start stop = none ∧ carryOut m = .ok a m' := by
  simp only [EStateM.run, attempt] at h
  split at h
  · cases h
  · next hrefusal =>
      split at h
      · exact ⟨hrefusal, h⟩
      · next hdecide =>
          obtain ⟨fault, hfault, hkind, heffect⟩ := (Fault.effect_of_decide? hdecide).1 _ rfl
          exact absurd heffect (genuine fault hfault hkind)
      · cases h

theorem genuine_of_decide? {faults : List Fault} {effect : Option FaultEffect}
    (genuine : m.Genuine kind') (h : Fault.decide? kind start stop m.faults = (effect, faults)) :
    ({ m with faults } : FlashMemory).Genuine kind' := by
  intro fault hfault hkind
  obtain ⟨fault', hfault', hkind', heffect⟩ := (Fault.effect_of_decide? h).2 fault hfault
  exact heffect ▸ genuine fault' hfault' (hkind'.trans hkind)

/-- A call that is reported as done leaves no new faults behind. -/
theorem genuine_of_ok (genuine : m.Genuine kind')
    (hcarry : ∀ a m', carryOut m = .ok a m' → m'.faults = m.faults)
    (h : (attempt kind unit start stop ignored carryOut).run m = .ok a m') : m'.Genuine kind' := by
  simp only [EStateM.run, attempt] at h
  split at h
  · cases h
  · split at h
    · intro fault hfault
      rw [hcarry a m' h] at hfault
      exact genuine fault hfault
    · next hdecide =>
        cases h
        exact genuine_of_decide? genuine hdecide
    · cases h

/-- A call that fails leaves no new faults behind. -/
theorem genuine_of_error (genuine : m.Genuine kind') (hcarry : ∀ e m', carryOut m ≠ .error e m')
    (h : (attempt kind unit start stop ignored carryOut).run m = .error e m') : m'.Genuine kind' := by
  simp only [EStateM.run, attempt] at h
  split at h
  · cases h
    exact genuine
  · split at h
    · exact absurd h (hcarry e m')
    · cases h
    · next hdecide =>
        cases h
        exact genuine_of_decide? genuine hdecide

/-- A call that fails changes nothing, whatever faults lie in wait. -/
theorem byteAt_of_error (hcarry : ∀ e m', carryOut m ≠ .error e m')
    (h : (attempt kind unit start stop ignored carryOut).run m = .error e m') :
    m'.byteAt = m.byteAt := by
  simp only [EStateM.run, attempt] at h
  split at h
  · cases h
    rfl
  · split at h
    · exact absurd h (hcarry e m')
    · cases h
    · cases h
      rfl

/-- A call that is reported as done was carried out, or it changed nothing. -/
theorem byteAt_of_ok (h : (attempt kind unit start stop ignored carryOut).run m = .ok a m') :
    m'.byteAt = m.byteAt ∨ m.refusal? unit start stop = none ∧ carryOut m = .ok a m' := by
  simp only [EStateM.run, attempt] at h
  split at h
  · cases h
  · next hrefusal =>
      split at h
      · exact Or.inr ⟨hrefusal, h⟩
      · cases h
        exact Or.inl rfl
      · cases h

theorem unchanged_of_error (sound : view.Sound m) (hcarry : ∀ e m', carryOut m ≠ .error e m')
    (h : (attempt kind unit start stop ignored carryOut).run m = .error e m') :
    view.Sound m' ∧ view.content m' = view.content m :=
  ⟨sound_iff_genuine.mpr fun kind => genuine_of_error (sound_iff_genuine.mp sound kind) hcarry h,
    byteAt_of_error hcarry h⟩

/-- Without faults a call is refused for its range, or carried out. -/
theorem attempt_faultless (h : m.faults = []) :
    (attempt kind unit start stop ignored carryOut).run m =
      match m.refusal? unit start stop with
      | some error => .error error m
      | none => carryOut m := by
  obtain ⟨first, bytes, faults⟩ := m
  obtain rfl : faults = [] := h
  simp only [EStateM.run, attempt]
  cases refusal? ⟨first, bytes, []⟩ unit start stop <;> rfl

/-- A read that is not feigned tells what is there. -/
theorem readOut_of_ok {eraseSize length : Nat} {address : UInt32} {bytes : Vector UInt8 length}
    (genuine : m.Genuine .read) (h : ((chip eraseSize).read address length).run m = .ok bytes m') :
    m' = m ∧ bytes.toList = (view.content m).peek address.toNat length := by
  obtain ⟨-, hcarried⟩ := carriedOut_of_ok genuine h
  cases hcarried
  refine ⟨rfl, List.ext_getElem (by simp) fun i hi _ => ?_⟩
  simp [view, FlashContent.peek]

/-- The chip on a memory is atomic, whatever units it erases. -/
theorem chip_atomic (eraseSize : Nat) : (chip eraseSize).Atomic view where
  read_ok sound h := by
    obtain ⟨rfl, hbytes⟩ := readOut_of_ok (sound_iff_genuine.mp sound _) h
    exact ⟨sound, rfl, hbytes⟩
  read_error sound h := unchanged_of_error sound (fun _ _ => by simp) h
  erase_ok {start stop m m'} sound h := by
    obtain ⟨hrefusal, hcarried⟩ := carriedOut_of_ok (sound_iff_genuine.mp sound _) h
    cases hcarried
    obtain ⟨hstart, hle, hstop⟩ := refusal?_eq_none hrefusal
    refine ⟨by simpa [view, poke] using sound, ?_⟩
    funext x
    have hend : start.toNat + (stop.toNat - start.toNat) = stop.toNat := by omega
    simp only [view, poke, FlashContent.erase]
    rw [byteAt_changeWith hstart (by simp only [List.length_replicate]; omega)]
    simp [hend]
  erase_error sound h := (unchanged_of_error sound (fun _ _ => by simp) h).1
  erase_error_content sound h := (unchanged_of_error sound (fun _ _ => by simp) h).2
  write_ok {address bytes m m'} sound h := by
    obtain ⟨hrefusal, hcarried⟩ := carriedOut_of_ok (sound_iff_genuine.mp sound _) h
    cases hcarried
    obtain ⟨hstart, _, hstop⟩ := refusal?_eq_none hrefusal
    refine ⟨by simpa [view] using sound, ?_⟩
    funext x
    exact byteAt_changeWith hstart hstop x
  write_error sound h := (unchanged_of_error sound (fun _ _ => by simp) h).1
  write_error_content sound h := (unchanged_of_error sound (fun _ _ => by simp) h).2

/-- The memory read as flash, whatever faults lie in wait. -/
def faultyView : NorFlash.View FlashMemory where
  content := byteAt
  Sound _ := True

/-- Even with faults that feign a success, reads of the chip and calls that fail change nothing. -/
theorem chip_failsafe (eraseSize : Nat) : (chip eraseSize).Failsafe faultyView where
  read_ok _ h := by
    rcases byteAt_of_ok h with hsame | ⟨-, hcarried⟩
    · exact ⟨trivial, hsame⟩
    · cases hcarried
      exact ⟨trivial, rfl⟩
  read_error _ h := ⟨trivial, byteAt_of_error (fun _ _ => by simp) h⟩
  write_ok {address bytes m m'} _ h := by
    refine ⟨trivial, fun x hx => ?_⟩
    rcases byteAt_of_ok h with hsame | ⟨hrefusal, hcarried⟩
    · exact congrFun hsame x
    · cases hcarried
      obtain ⟨hstart, -, hstop⟩ := refusal?_eq_none hrefusal
      refine (byteAt_changeWith hstart hstop x).trans (dif_neg ?_)
      omega
  write_error _ h := ⟨trivial, byteAt_of_error (fun _ _ => by simp) h⟩

end FlashMemory

/-! ### A small device -/

namespace SmallDevice

/-- The settings of a device with eight units of sixteen bytes, small enough to compute runs of it.
The record is in the second unit. -/
def config : Config := { key := Vector.replicate 32 0, appBase := 16, appLimit := 112 }

def chip : NorFlash FlashMemory := FlashMemory.chip 16

/-- Erased but for the tag of a provisional record. -/
def flash : FlashMemory :=
  (FlashMemory.erased 0 128).poke 32 (LittleEndian.encode32 RecordTag.provisionalWord)

theorem flash_sound : FlashMemory.view.Sound flash := by
  have hfaults : flash.faults = [] := by decide +kernel
  simp [FlashMemory.view, hfaults]

def start : Snapshot 16 FlashMemory := ⟨{}, flash⟩

def run (past : List Arrival) : Snapshot 16 FlashMemory := start.run config chip past

def history (past : List Arrival) : List (Exchange 16 FlashMemory) :=
  start.exchanges config chip past

/-- The exchange over a packet that comes after others. -/
def next (past : List Arrival) (a : Arrival) : Exchange 16 FlashMemory :=
  (run past).exchange config chip a

theorem history_concat (past : List Arrival) (a : Arrival) :
    history (past ++ [a]) = history past ++ [next past a] := Snapshot.exchanges_concat

theorem map_history_of_concat {β : Type} {f : Exchange 16 FlashMemory → β} {past : List Arrival}
    {a : Arrival} {ys : List β} {y : β} (h : (history (past ++ [a])).map f = ys ++ [y]) :
    (history past).map f = ys ∧ f (next past a) = y := by
  rw [history_concat, List.map_append, List.map_singleton] at h
  obtain ⟨hpast, hnext⟩ := List.append_inj' h (by simp only [List.length_singleton])
  exact ⟨hpast, List.singleton_inj.mp hnext⟩

def command (packet : ControlPacket) : Arrival := ⟨0, .control packet.encode⟩

def data (bytes : Bytes) : Arrival := ⟨0, .data bytes⟩

/-- The digest of the tag is checked. -/
def check : List Arrival :=
  [command { command := .digest, length := 4, address := 32 },
    data (Sha256.hash (LittleEndian.encode32 RecordTag.provisionalWord)).toList]

def done : Arrival := command { command := .done }

/-- What a block of zeros decrypts to after a vector of zeros. -/
def plain : Bytes := [103, 103, 28, 225, 250, 145, 221, 235, 15, 143, 187, 179, 102, 181, 49, 180]

theorem asks_done (past : List Arrival) : (next past done).Asks .done := by
  refine ⟨{ command := .done }, ?_, rfl⟩
  rw [next, Snapshot.exchange_arrival]
  decide

end SmallDevice

end FirmwareUpdate
