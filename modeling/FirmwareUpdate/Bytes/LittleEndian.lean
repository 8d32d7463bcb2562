/-!
# Little-endian words

A word of `k` bytes is written lowest byte first. `digits` writes a number and `value` reads one;
each undoes the other on words of 16 and of 32 bits.
-/

namespace FirmwareUpdate

/-- A run of bytes, as a packet or a stretch of flash holds it. -/
abbrev Bytes := List UInt8

namespace LittleEndian

/-- The `k` lowest base-256 digits of a number, lowest first. -/
def digits : Nat → Nat → Bytes
  | 0, _ => []
  | k + 1, n => UInt8.ofNat n :: digits k (n / 256)

/-- The number whose base-256 digits, lowest first, are the given bytes. -/
def value : Bytes → Nat
  | [] => 0
  | b :: bs => b.toNat + 256 * value bs

@[simp] theorem length_digits (k n : Nat) : (digits k n).length = k := by
  induction k generalizing n with
  | zero => rfl
  | succ k ih => simp [digits, ih]

@[simp] theorem digits_value (bs : Bytes) : digits bs.length (value bs) = bs := by
  induction bs with
  | nil => rfl
  | cons b bs ih =>
      have hb := b.toNat_lt
      have hlow : UInt8.ofNat (b.toNat + 256 * value bs) = b := by
        apply UInt8.toNat_inj.mp
        rw [UInt8.toNat_ofNat']
        omega
      have hhigh : (b.toNat + 256 * value bs) / 256 = value bs := by omega
      simp only [List.length_cons, digits, value, hlow, hhigh, ih]

def encode16 (w : UInt16) : Bytes := digits 2 w.toNat

def encode32 (w : UInt32) : Bytes := digits 4 w.toNat

def decode16 (b₀ b₁ : UInt8) : UInt16 := UInt16.ofNat (value [b₀, b₁])

def decode32 (b₀ b₁ b₂ b₃ : UInt8) : UInt32 := UInt32.ofNat (value [b₀, b₁, b₂, b₃])

@[simp] theorem length_encode16 (w : UInt16) : (encode16 w).length = 2 := length_digits _ _

@[simp] theorem length_encode32 (w : UInt32) : (encode32 w).length = 4 := length_digits _ _

theorem encode16_decode16 (b₀ b₁ : UInt8) : encode16 (decode16 b₀ b₁) = [b₀, b₁] := by
  have h₀ := b₀.toNat_lt
  have h₁ := b₁.toNat_lt
  have hfits : value [b₀, b₁] % 2 ^ 16 = value [b₀, b₁] := by
    simp only [value]
    omega
  rw [encode16, decode16, UInt16.toNat_ofNat', hfits]
  exact digits_value [b₀, b₁]

theorem encode32_decode32 (b₀ b₁ b₂ b₃ : UInt8) :
    encode32 (decode32 b₀ b₁ b₂ b₃) = [b₀, b₁, b₂, b₃] := by
  have h₀ := b₀.toNat_lt
  have h₁ := b₁.toNat_lt
  have h₂ := b₂.toNat_lt
  have h₃ := b₃.toNat_lt
  have hfits : value [b₀, b₁, b₂, b₃] % 2 ^ 32 = value [b₀, b₁, b₂, b₃] := by
    simp only [value]
    omega
  rw [encode32, decode32, UInt32.toNat_ofNat', hfits]
  exact digits_value [b₀, b₁, b₂, b₃]

theorem value_encode16 (w : UInt16) : value (encode16 w) = w.toNat := by
  have h := w.toNat_lt
  simp only [encode16, digits, value, UInt8.toNat_ofNat']
  omega

theorem value_encode32 (w : UInt32) : value (encode32 w) = w.toNat := by
  have h := w.toNat_lt
  simp only [encode32, digits, value, UInt8.toNat_ofNat']
  omega

end LittleEndian

end FirmwareUpdate
