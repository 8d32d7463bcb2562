import FirmwareUpdate.Wire.ControlPacket
import FirmwareUpdate.Wire.PayloadPacket
import FirmwareUpdate.Wire.Progress
import Mathlib.Tactic.IntervalCases

/-!
# Packets and byte strings

Every packet reads as it was written, and every byte string that is read is the one that its packet is
written as. So packets correspond one to one to the byte strings accepted. A byte string that is refused
is refused for its length first.
-/

namespace FirmwareUpdate

variable {bytes : Bytes}

namespace LittleEndian

theorem decode16_encode16 (w : UInt16) :
    ∃ b₀ b₁, encode16 w = [b₀, b₁] ∧ decode16 b₀ b₁ = w := by
  refine ⟨_, _, rfl, ?_⟩
  rw [decode16]
  exact (congrArg UInt16.ofNat (value_encode16 w)).trans UInt16.ofNat_toNat

theorem decode32_encode32 (w : UInt32) :
    ∃ b₀ b₁ b₂ b₃, encode32 w = [b₀, b₁, b₂, b₃] ∧ decode32 b₀ b₁ b₂ b₃ = w := by
  refine ⟨_, _, _, _, rfl, ?_⟩
  rw [decode32]
  exact (congrArg UInt32.ofNat (value_encode32 w)).trans UInt32.ofNat_toNat

theorem toNat_decode16 (b₀ b₁ : UInt8) : (decode16 b₀ b₁).toNat = value [b₀, b₁] := by
  rw [← value_encode16, encode16_decode16]

end LittleEndian

/-! ### Control packets -/

/-- The codes are the numbers from one to seven. -/
theorem Command.exists_ofCode?_iff {w : UInt16} :
    (∃ c, ofCode? w = some c) ↔ 1 ≤ w.toNat ∧ w.toNat ≤ 7 := by
  constructor
  · rintro ⟨c, h⟩
    rw [ofCode?_eq_some_iff] at h
    subst h
    cases c <;> decide
  · rintro ⟨hlow, hhigh⟩
    rw [← UInt16.ofNat_toNat (x := w)]
    interval_cases w.toNat
    · exact ⟨restart, rfl⟩
    · exact ⟨data, rfl⟩
    · exact ⟨vector, rfl⟩
    · exact ⟨done, rfl⟩
    · exact ⟨reset, rfl⟩
    · exact ⟨digest, rfl⟩
    · exact ⟨ping, rfl⟩

namespace ControlPacket

/-- The number in the first two bytes, which stands for the command. -/
def codeAt (bytes : Bytes) : Nat := LittleEndian.value (bytes.take 2)

@[simp] theorem length_encode (p : ControlPacket) : p.encode.length = size := by
  simp [encode, size]

theorem decode_encode (p : ControlPacket) : decode p.encode = .ok p := by
  obtain ⟨command, length, address⟩ := p
  obtain ⟨c₀, c₁, hcode, hcommand⟩ := LittleEndian.decode16_encode16 command.code
  obtain ⟨l₀, l₁, hl, hlength⟩ := LittleEndian.decode16_encode16 length
  obtain ⟨a₀, a₁, a₂, a₃, ha, haddress⟩ := LittleEndian.decode32_encode32 address
  simp only [encode, hcode, hl, ha, List.cons_append, List.nil_append, decode, hcommand,
    Command.ofCode?_code, hlength, haddress]

/-- A byte string of another length is refused for that; one of eight bytes is a packet as it is written,
or has no command for its code. -/
theorem decode_cases (bytes : Bytes) :
    (bytes.length ≠ size ∧ decode bytes = .error (.wrongLength size bytes.length)) ∨
      bytes.length = size ∧ ∃ code : UInt16, code.toNat = codeAt bytes ∧
        ((∃ p, Command.ofCode? code = some p.command ∧ decode bytes = .ok p ∧ bytes = p.encode) ∨
          (Command.ofCode? code = none ∧ decode bytes = .error (.unknownCommand code))) := by
  unfold decode
  split
  · next c₀ c₁ l₀ l₁ a₀ a₁ a₂ a₃ =>
      refine Or.inr ⟨rfl, LittleEndian.decode16 c₀ c₁, LittleEndian.toNat_decode16 c₀ c₁, ?_⟩
      cases hcommand : Command.ofCode? (LittleEndian.decode16 c₀ c₁) with
      | none => exact Or.inr ⟨rfl, by simp only [hcommand]⟩
      | some command =>
          have hcode := Command.ofCode?_eq_some_iff.mp hcommand
          let p : ControlPacket :=
            { command
              length := LittleEndian.decode16 l₀ l₁
              address := LittleEndian.decode32 a₀ a₁ a₂ a₃ }
          refine Or.inl ⟨p, rfl, by simp only [hcommand, p], ?_⟩
          simp only [p, encode, ← hcode, LittleEndian.encode16_decode16,
            LittleEndian.encode32_decode32, List.cons_append, List.nil_append]
  · next hother =>
      refine Or.inl ⟨fun hlength => ?_, rfl⟩
      match bytes, hlength, hother with
      | [_, _, _, _, _, _, _, _], _, hother => exact hother _ _ _ _ _ _ _ _ rfl

/-- Reading gives a packet exactly for the byte string that it is written as. -/
theorem decode_eq_ok_iff {p : ControlPacket} : decode bytes = .ok p ↔ bytes = p.encode := by
  constructor
  · intro h
    rcases decode_cases bytes with
      ⟨_, hwrong⟩ | ⟨_, _, _, ⟨q, _, hread, hbytes⟩ | ⟨_, hunknown⟩⟩
    · simp [hwrong] at h
    · rw [hread] at h
      cases h
      exact hbytes
    · simp [hunknown] at h
  · rintro rfl
    exact decode_encode p

/-- Eight bytes are read if the first two are the code of a command. -/
theorem exists_decode_iff :
    (∃ p, decode bytes = .ok p) ↔ bytes.length = size ∧ 1 ≤ codeAt bytes ∧ codeAt bytes ≤ 7 := by
  rcases decode_cases bytes with
    ⟨hlength, hwrong⟩ | ⟨hlength, code, hcode, ⟨p, hcommand, hread, _⟩ | ⟨hnone, hunknown⟩⟩
  · simp [hwrong, hlength]
  · have hrange := Command.exists_ofCode?_iff.mp ⟨_, hcommand⟩
    rw [hcode] at hrange
    exact iff_of_true ⟨p, hread⟩ ⟨hlength, hrange⟩
  · refine iff_of_false (by simp [hunknown]) fun ⟨_, hrange⟩ => ?_
    rw [← hcode, ← Command.exists_ofCode?_iff] at hrange
    simp [hnone] at hrange

theorem decode_eq_error_iff {e : PacketError} :
    decode bytes = .error e ↔
      (bytes.length ≠ size ∧ e = .wrongLength size bytes.length) ∨
        (bytes.length = size ∧ ¬(1 ≤ codeAt bytes ∧ codeAt bytes ≤ 7) ∧
          ∃ code : UInt16, code.toNat = codeAt bytes ∧ e = .unknownCommand code) := by
  rcases decode_cases bytes with
    ⟨hlength, hwrong⟩ | ⟨hlength, code, hcode, ⟨p, hcommand, hread, _⟩ | ⟨hnone, hunknown⟩⟩
  · simp [hwrong, hlength, eq_comm]
  · have hrange := (exists_decode_iff.mp ⟨p, hread⟩).2
    simp [hread, hlength, hrange]
  · have hrange : ¬(1 ≤ codeAt bytes ∧ codeAt bytes ≤ 7) := by
      rw [← hcode, ← Command.exists_ofCode?_iff]
      simp [hnone]
    have hsame (code' : UInt16) : code'.toNat = codeAt bytes ↔ code' = code := by
      rw [← hcode, UInt16.toNat_inj]
    simp [hunknown, hlength, hrange, hsame, eq_comm]

end ControlPacket

/-! ### Progress notices -/

namespace Progress

/-- The number in the first byte, which stands for the kind of notice. -/
def codeAt (bytes : Bytes) : Nat := LittleEndian.value (bytes.take 1)

@[simp] theorem length_encode (q : Progress) : q.encode.length = size := by
  simp [encode, size]

theorem decode_encode (q : Progress) : decode q.encode = .ok q := by
  obtain ⟨a₀, a₁, a₂, a₃, hbytes, haddress⟩ := LittleEndian.decode32_encode32 q.address
  rw [encode, hbytes]
  cases q with
  | resync address => simp only [decode, code, haddress, if_true, Progress.address]
  | digestFailed address =>
      have hcode : (2 : UInt8) ≠ 1 := by decide
      simp only [decode, code, haddress, hcode, if_true, if_false, Progress.address]

/-- A byte string of another length is refused for that; one of five bytes is a notice as it is written,
or has a code that stands for nothing. -/
theorem decode_cases (bytes : Bytes) :
    (bytes.length ≠ size ∧ decode bytes = .error (.wrongLength size bytes.length)) ∨
      bytes.length = size ∧ ∃ code : UInt8, code.toNat = codeAt bytes ∧
        ((∃ q, decode bytes = .ok q ∧ bytes = q.encode ∧ (code = 1 ∨ code = 2)) ∨
          (code ≠ 1 ∧ code ≠ 2 ∧ decode bytes = .error (.unknownProgress code))) := by
  unfold decode
  split
  · next code a₀ a₁ a₂ a₃ =>
      refine Or.inr ⟨rfl, code, rfl, ?_⟩
      by_cases hresync : code = 1
      · subst hresync
        refine Or.inl ⟨.resync (LittleEndian.decode32 a₀ a₁ a₂ a₃), rfl, ?_, Or.inl rfl⟩
        rw [encode, address, LittleEndian.encode32_decode32]
        rfl
      · by_cases hfailed : code = 2
        · subst hfailed
          refine Or.inl ⟨.digestFailed (LittleEndian.decode32 a₀ a₁ a₂ a₃), rfl, ?_, Or.inr rfl⟩
          rw [encode, address, LittleEndian.encode32_decode32]
          rfl
        · exact Or.inr ⟨hresync, hfailed, by simp only [hresync, hfailed, if_false]⟩
  · next hother =>
      refine Or.inl ⟨fun hlength => ?_, rfl⟩
      match bytes, hlength, hother with
      | [_, _, _, _, _], _, hother => exact hother _ _ _ _ _ rfl

/-- Reading gives a notice exactly for the byte string that it is written as. -/
theorem decode_eq_ok_iff {q : Progress} : decode bytes = .ok q ↔ bytes = q.encode := by
  constructor
  · intro h
    rcases decode_cases bytes with
      ⟨_, hwrong⟩ | ⟨_, _, _, ⟨_, hread, hbytes, _⟩ | ⟨_, _, hunknown⟩⟩
    · simp [hwrong] at h
    · rw [hread] at h
      cases h
      exact hbytes
    · simp [hunknown] at h
  · rintro rfl
    exact decode_encode q

theorem codeAt_iff {code : UInt8} (h : code.toNat = codeAt bytes) :
    codeAt bytes = 1 ∨ codeAt bytes = 2 ↔ code = 1 ∨ code = 2 := by
  rw [← h, ← UInt8.toNat_inj, ← UInt8.toNat_inj]
  rfl

/-- Five bytes are read if the first one is one or two. -/
theorem exists_decode_iff :
    (∃ q, decode bytes = .ok q) ↔ bytes.length = size ∧ (codeAt bytes = 1 ∨ codeAt bytes = 2) := by
  rcases decode_cases bytes with
    ⟨hlength, hwrong⟩ | ⟨hlength, code, hcode, ⟨q, hread, _, hkind⟩ | ⟨hne, hne', hunknown⟩⟩
  · simp [hwrong, hlength]
  · exact iff_of_true ⟨q, hread⟩ ⟨hlength, (codeAt_iff hcode).mpr hkind⟩
  · rw [codeAt_iff hcode]
    simp [hunknown, hne, hne']

theorem decode_eq_error_iff {e : PacketError} :
    decode bytes = .error e ↔
      (bytes.length ≠ size ∧ e = .wrongLength size bytes.length) ∨
        (bytes.length = size ∧ ¬(codeAt bytes = 1 ∨ codeAt bytes = 2) ∧
          ∃ code : UInt8, code.toNat = codeAt bytes ∧ e = .unknownProgress code) := by
  rcases decode_cases bytes with
    ⟨hlength, hwrong⟩ | ⟨hlength, code, hcode, ⟨q, hread, _⟩ | ⟨hne, hne', hunknown⟩⟩
  · simp [hwrong, hlength, eq_comm]
  · have hkind := (exists_decode_iff.mp ⟨q, hread⟩).2
    simp [hread, hlength, hkind]
  · have hsame (code' : UInt8) : code'.toNat = codeAt bytes ↔ code' = code := by
      rw [← hcode, UInt8.toNat_inj]
    rw [codeAt_iff hcode]
    simp [hunknown, hlength, hne, hne', hsame, eq_comm]

end Progress

/-! ### Payload packets -/

namespace PayloadPacket

variable {p : PayloadPacket} {buffer : Bytes}

@[simp] theorem length_encode (p : PayloadPacket) :
    p.encode.length = addressSize + p.payload.length := by
  simp [encode, addressSize]

/-- A packet with payload reads as it was written. -/
theorem decode_encode (h : p.payload ≠ []) : decode p.encode = .ok p := by
  obtain ⟨address, payload⟩ := p
  obtain ⟨b₀, b₁, b₂, b₃, hbytes, haddress⟩ := LittleEndian.decode32_encode32 address
  cases payload with
  | nil => exact absurd rfl h
  | cons b bs => simp only [encode, hbytes, List.cons_append, List.nil_append, decode, haddress]

/-- A byte string is too short, or it is a packet with payload as it is written. -/
theorem decode_cases (bytes : Bytes) :
    (bytes.length ≤ addressSize ∧
        decode bytes = .error (.tooShort (addressSize + 1) bytes.length)) ∨
      addressSize < bytes.length ∧ ∃ p, decode bytes = .ok p ∧ p.payload ≠ [] ∧ bytes = p.encode := by
  unfold decode
  split
  · next a₀ a₁ a₂ a₃ b rest =>
      refine Or.inr ⟨?_, _, rfl, List.cons_ne_nil _ _, ?_⟩
      · simp only [List.length_cons, addressSize]
        omega
      · rw [encode, LittleEndian.encode32_decode32]
        rfl
  · next hother =>
      refine Or.inl ⟨Nat.le_of_not_lt fun hlong => ?_, rfl⟩
      match bytes, hlong, hother with
      | _ :: _ :: _ :: _ :: _ :: _, _, hother => exact hother _ _ _ _ _ _ rfl

/-- Reading gives a packet exactly for the byte string that it is written as, if it has payload. -/
theorem decode_eq_ok_iff : decode bytes = .ok p ↔ p.payload ≠ [] ∧ bytes = p.encode := by
  constructor
  · intro h
    rcases decode_cases bytes with ⟨_, hshort⟩ | ⟨_, q, hread, hpayload, hbytes⟩
    · simp [hshort] at h
    · rw [hread] at h
      cases h
      exact ⟨hpayload, hbytes⟩
  · rintro ⟨hpayload, rfl⟩
    exact decode_encode hpayload

theorem decode_eq_error_iff {e : PacketError} :
    decode bytes = .error e ↔
      bytes.length ≤ addressSize ∧ e = .tooShort (addressSize + 1) bytes.length := by
  rcases decode_cases bytes with ⟨hlength, hshort⟩ | ⟨hlength, q, hread, _⟩
  · simp [hshort, hlength, eq_comm]
  · simp [hread, hlength]

/-- What is written over the front of a buffer with enough room. -/
theorem writeTo_of_le (h : addressSize + p.payload.length ≤ buffer.length) :
    p.writeTo buffer =
      (.ok (addressSize + p.payload.length),
        p.encode ++ buffer.drop (addressSize + p.payload.length)) :=
  if_neg (Nat.not_lt_of_le h)

theorem writeTo_of_lt (h : buffer.length < addressSize + p.payload.length) :
    p.writeTo buffer = (.error .bufferTooSmall, buffer) :=
  if_pos h

/-- What stands in front of the rest of a buffer with enough room reads as the packet, unless it has no
payload. -/
theorem decode_take_writeTo (h : addressSize + p.payload.length ≤ buffer.length) :
    decode ((p.writeTo buffer).2.take (addressSize + p.payload.length)) =
      if p.payload = [] then .error (.tooShort (addressSize + 1) addressSize) else .ok p := by
  rw [writeTo_of_le h, List.take_left' (length_encode p)]
  split
  · next hempty =>
      have hlength : p.encode.length = addressSize := by simp [hempty]
      rw [decode_eq_error_iff]
      exact ⟨Nat.le_of_eq hlength, by rw [hlength]⟩
  · next hpayload => exact decode_encode hpayload

/-- A byte string of at least five bytes reads as a packet that is written as it. -/
theorem exists_decode_writeTo (h : addressSize < bytes.length) :
    ∃ p, decode bytes = .ok p ∧ ∀ buffer : Bytes, bytes.length ≤ buffer.length →
      p.writeTo buffer = (.ok bytes.length, bytes ++ buffer.drop bytes.length) := by
  rcases decode_cases bytes with ⟨hshort, _⟩ | ⟨_, p, hread, _, hbytes⟩
  · omega
  · have hlength : addressSize + p.payload.length = bytes.length := by rw [hbytes, length_encode]
    refine ⟨p, hread, fun buffer hroom => ?_⟩
    rw [writeTo_of_le (hlength ▸ hroom), hlength, ← hbytes]

end PayloadPacket

/-- Packets correspond one to one to the byte strings accepted. A control packet is read exactly from
the eight bytes that it is written as, if they begin with a code from one to seven, and a notice exactly
from its five bytes, if they begin with one or two; anything else is refused for its length, and only if
that is right for its code. A payload packet is written exactly into a buffer that has room for four
bytes and its payload, over the front of it; it reads as it was written if it has payload, and any five
bytes or more read as the packet that is written as they are. -/
theorem packets_correspond_to_accepted_bytes :
    (∀ bytes : Bytes,
      (∀ p, ControlPacket.decode bytes = .ok p ↔ bytes = p.encode) ∧
      ((∃ p, ControlPacket.decode bytes = .ok p) ↔
        bytes.length = 8 ∧ 1 ≤ ControlPacket.codeAt bytes ∧ ControlPacket.codeAt bytes ≤ 7) ∧
      ∀ e, ControlPacket.decode bytes = .error e ↔
        (bytes.length ≠ 8 ∧ e = .wrongLength 8 bytes.length) ∨
          (bytes.length = 8 ∧ ¬(1 ≤ ControlPacket.codeAt bytes ∧ ControlPacket.codeAt bytes ≤ 7) ∧
            ∃ code : UInt16, code.toNat = ControlPacket.codeAt bytes ∧ e = .unknownCommand code)) ∧
    (∀ bytes : Bytes,
      (∀ q, Progress.decode bytes = .ok q ↔ bytes = q.encode) ∧
      ((∃ q, Progress.decode bytes = .ok q) ↔
        bytes.length = 5 ∧ (Progress.codeAt bytes = 1 ∨ Progress.codeAt bytes = 2)) ∧
      ∀ e, Progress.decode bytes = .error e ↔
        (bytes.length ≠ 5 ∧ e = .wrongLength 5 bytes.length) ∨
          (bytes.length = 5 ∧ ¬(Progress.codeAt bytes = 1 ∨ Progress.codeAt bytes = 2) ∧
            ∃ code : UInt8, code.toNat = Progress.codeAt bytes ∧ e = .unknownProgress code)) ∧
    (∀ (p : PayloadPacket) (buffer : Bytes),
      let size := 4 + p.payload.length
      (∀ n, (p.writeTo buffer).1 = .ok n ↔ size ≤ buffer.length ∧ n = size) ∧
      (∀ e, (p.writeTo buffer).1 = .error e ↔ buffer.length < size ∧ e = .bufferTooSmall) ∧
      (buffer.length < size → (p.writeTo buffer).2 = buffer) ∧
      (size ≤ buffer.length →
        (p.writeTo buffer).2.length = buffer.length ∧
        (p.writeTo buffer).2.drop size = buffer.drop size ∧
        PayloadPacket.decode ((p.writeTo buffer).2.take size) =
          if p.payload = [] then .error (.tooShort 5 4) else .ok p)) ∧
    ∀ bytes : Bytes,
      (∀ p, PayloadPacket.decode bytes = .ok p ↔ p.payload ≠ [] ∧ bytes = p.encode) ∧
      (∀ e, PayloadPacket.decode bytes = .error e ↔
        bytes.length ≤ 4 ∧ e = .tooShort 5 bytes.length) ∧
      (5 ≤ bytes.length → ∃ p, PayloadPacket.decode bytes = .ok p ∧
        ∀ buffer : Bytes, bytes.length ≤ buffer.length →
          p.writeTo buffer = (.ok bytes.length, bytes ++ buffer.drop bytes.length)) := by
  refine ⟨fun bytes => ?control, fun bytes => ?progress, fun p buffer => ?written, fun bytes => ?payload⟩
  case control =>
    exact ⟨fun _ => ControlPacket.decode_eq_ok_iff, ControlPacket.exists_decode_iff,
      fun _ => ControlPacket.decode_eq_error_iff⟩
  case progress =>
    exact ⟨fun _ => Progress.decode_eq_ok_iff, Progress.exists_decode_iff,
      fun _ => Progress.decode_eq_error_iff⟩
  case payload =>
    exact ⟨fun _ => PayloadPacket.decode_eq_ok_iff, fun _ => PayloadPacket.decode_eq_error_iff,
      PayloadPacket.exists_decode_writeTo⟩
  case written =>
    intro size
    by_cases hroom : size ≤ buffer.length
    · have hwritten : p.writeTo buffer = (.ok size, p.encode ++ buffer.drop size) :=
        PayloadPacket.writeTo_of_le hroom
      have hlength : p.encode.length = size := PayloadPacket.length_encode p
      refine ⟨fun n => ?_, fun e => ?_, fun hlt => absurd hroom (Nat.not_le_of_lt hlt), fun _ => ?_⟩
      · simp [hwritten, hroom, eq_comm]
      · simp [hwritten, hroom]
      · refine ⟨?_, ?_, PayloadPacket.decode_take_writeTo hroom⟩
        · rw [hwritten, List.length_append, hlength, List.length_drop]
          omega
        · rw [hwritten, List.drop_left' hlength]
    · have hlt := Nat.lt_of_not_le hroom
      have hkept : p.writeTo buffer = (.error .bufferTooSmall, buffer) :=
        PayloadPacket.writeTo_of_lt hlt
      refine ⟨fun n => ?_, fun e => ?_, fun _ => by rw [hkept], fun h => absurd h hroom⟩
      · simp [hkept, hroom]
      · simp [hkept, hlt, eq_comm]

end FirmwareUpdate
