import FirmwareUpdate.Bytes.LittleEndian

/-!
# Runs of bytes of a fixed length

Keys, digests, cipher blocks and the buffered unit have a length that their type states. This file
reads them from loose bytes, cuts a stretch out of one, and lays bytes over a part of one.
-/

namespace FirmwareUpdate.Bytes

variable {n : Nat}

/-- The bytes as a vector, if there are exactly `n` of them. -/
def exactly? (n : Nat) (bytes : Bytes) : Option (Vector UInt8 n) :=
  if h : bytes.length = n then some ⟨bytes.toArray, by simpa using h⟩ else none

theorem exactly?_eq_some_iff {bytes : Bytes} {v : Vector UInt8 n} :
    exactly? n bytes = some v ↔ v.toList = bytes := by
  unfold exactly?
  split
  · next h =>
      rw [Option.some.injEq]
      constructor
      · rintro rfl
        simp
      · rintro rfl
        exact Vector.toArray_inj.mp (by simp [Vector.toArray_toList])
  · next h =>
      simp only [reduceCtorEq, false_iff]
      rintro rfl
      simp at h

/-- The bytes from position `start` up to, not including, `stop`. -/
def slice (v : Vector UInt8 n) (start stop : Nat) : Bytes :=
  (v.toList.drop start).take (stop - start)

/-- The vector with `bytes` in place of what stood from `offset` on. Bytes past its end are
dropped. -/
def overlay (v : Vector UInt8 n) (offset : Nat) : Bytes → Vector UInt8 n
  | [] => v
  | b :: bs => overlay (v.setIfInBounds offset b) (offset + 1) bs

theorem overlay_getElem (v : Vector UInt8 n) (offset : Nat) (bytes : Bytes) (i : Nat)
    (hi : i < n) :
    (overlay v offset bytes)[i] =
      if h : offset ≤ i ∧ i < offset + bytes.length then bytes[i - offset] else v[i] := by
  induction bytes generalizing v offset with
  | nil =>
      have hnot : ¬(offset ≤ i ∧ i < offset + ([] : Bytes).length) := by simp
      rw [dif_neg hnot, overlay]
  | cons b bs ih =>
      rw [overlay, ih, Vector.getElem_setIfInBounds]
      simp only [List.length_cons]
      by_cases heq : offset = i
      · subst heq
        have hnext : ¬(offset + 1 ≤ offset ∧ offset < offset + 1 + bs.length) := by omega
        rw [dif_neg hnext]
        simp
      · by_cases hlt : offset + 1 ≤ i ∧ i < offset + 1 + bs.length
        · have hwide : offset ≤ i ∧ i < offset + (bs.length + 1) := by omega
          have hsub : i - offset = i - (offset + 1) + 1 := by omega
          simp only [hlt, hwide, hsub, and_self, dif_pos, List.getElem_cons_succ]
        · have hwide : ¬(offset ≤ i ∧ i < offset + (bs.length + 1)) := by omega
          simp only [hlt, hwide, dif_neg, not_false_eq_true, heq, if_false]

end FirmwareUpdate.Bytes
