/-!
# Address arithmetic

Addresses are 32-bit words. A sum that does not fit is a case of its own, not a wrapped address.
-/

namespace FirmwareUpdate.Address

/-- The sum of two words, if it fits in a word. -/
def add? (a b : UInt32) : Option UInt32 :=
  if a.toNat + b.toNat < UInt32.size then some (a + b) else none

theorem add?_eq_some_iff {a b c : UInt32} :
    add? a b = some c ↔ a.toNat + b.toNat = c.toNat := by
  have hc := c.toNat_lt
  unfold add? UInt32.size
  split
  · next h =>
      rw [Option.some.injEq, ← UInt32.toNat_inj, UInt32.toNat_add]
      omega
  · next h =>
      simp only [reduceCtorEq, false_iff]
      omega

theorem add?_eq_none_iff {a b : UInt32} :
    add? a b = none ↔ UInt32.size ≤ a.toNat + b.toNat := by
  simp [add?]

theorem toNat_add_of_lt {a b : UInt32} (h : a.toNat + b.toNat < UInt32.size) :
    (a + b).toNat = a.toNat + b.toNat := by
  rw [UInt32.toNat_add]
  exact Nat.mod_eq_of_lt h

theorem toNat_add_ofNat {a : UInt32} {n : Nat} (h : a.toNat + n < UInt32.size) :
    (a + UInt32.ofNat n).toNat = a.toNat + n := by
  have hn : (UInt32.ofNat n).toNat = n := UInt32.toNat_ofNat_of_lt' (by omega)
  rw [toNat_add_of_lt (by rw [hn]; exact h), hn]

/-- The start of the unit of `page` bytes that contains the address. -/
def unitBase (page : Nat) (address : UInt32) : UInt32 :=
  address - address % UInt32.ofNat page

end FirmwareUpdate.Address
