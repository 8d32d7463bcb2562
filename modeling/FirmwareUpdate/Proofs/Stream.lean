import FirmwareUpdate.Cipher.Chain

/-!
# Spans decrypted one after another

A stream cut at block boundaries decrypts piece by piece to what it decrypts to as a whole, when each
piece is chained after the last block of the one before.
-/

namespace FirmwareUpdate

theorem Block.split_add (m n : Nat) {xs : Bytes} (ys : Bytes) (h : xs.length = m * size) :
    split (m + n) (xs ++ ys) = split m xs ++ split n ys := by
  induction m generalizing xs with
  | zero =>
      have hnil : xs = [] := List.eq_nil_of_length_eq_zero (by omega)
      simp [hnil, split]
  | succ m ih =>
      have hblock : size ≤ xs.length := by
        rw [h]
        exact Nat.le_mul_of_pos_left size (Nat.succ_pos m)
      have hrest : (xs.drop size).length = m * size := by
        rw [List.length_drop, h, Nat.succ_mul, Nat.add_sub_cancel]
      rw [Nat.add_right_comm, split, split, List.take_append_of_le_length hblock,
        List.drop_append_of_le_length hblock, ih hrest, List.cons_append]

theorem Block.toList_ofBytes {xs : Bytes} (h : xs.length = size) : (ofBytes xs).toList = xs := by
  simp only [size] at h
  apply List.ext_getElem (by rw [Vector.length_toList, h])
  intro i hi _
  rw [Vector.length_toList] at hi
  have hin : 0 ≤ i ∧ i < 0 + xs.length := by omega
  rw [Vector.getElem_toList]
  exact (Bytes.overlay_getElem zero 0 xs i hi).trans (by rw [dif_pos hin]; rfl)

namespace Chain

variable {key : Aes256.Key} {vector : Block} {xs ys : Bytes}

theorem blocks_append (h : xs.length % Block.size = 0) (ys : Bytes) :
    blocks (xs ++ ys) = blocks xs ++ blocks ys := by
  have hlength : xs.length = xs.length / Block.size * Block.size :=
    (Nat.div_mul_cancel (Nat.dvd_of_mod_eq_zero h)).symm
  have hcount : (xs ++ ys).length / Block.size = xs.length / Block.size + ys.length / Block.size := by
    simp only [List.length_append, Block.size] at h ⊢
    omega
  rw [blocks, hcount, Block.split_add _ _ _ hlength, blocks, blocks]

@[simp] theorem plaintext_nil : plaintext key vector [] = [] :=
  List.length_eq_zero_iff.mp (length_plaintext key vector rfl)

@[simp] theorem nextVector_nil : nextVector vector [] = vector := rfl

theorem plaintext_append (h : xs.length % Block.size = 0) (ys : Bytes) :
    plaintext key vector (xs ++ ys) =
      plaintext key vector xs ++ plaintext key (nextVector vector xs) ys := by
  simp only [plaintext, nextVector]
  rw [blocks_append h, decryptBlocks_append, Block.join, List.flatMap_append, Block.join, Block.join]

theorem nextVector_append (h : xs.length % Block.size = 0) (ys : Bytes) :
    nextVector vector (xs ++ ys) = nextVector (nextVector vector xs) ys := by
  rw [nextVector, blocks_append h, nextVector, nextVector]
  rcases List.eq_nil_or_concat (blocks ys) with hys | ⟨bs, b, hys⟩
  · simp [hys]
  · rw [hys, List.concat_eq_append, ← List.append_assoc, List.getLastD_concat, List.getLastD_concat]

/-- What follows a span of whole blocks is chained after its last sixteen bytes. -/
theorem toList_nextVector (hpos : 0 < xs.length) (h : xs.length % Block.size = 0) :
    (nextVector vector xs).toList = xs.drop (xs.length - Block.size) := by
  simp only [Block.size] at h
  have hlast : (xs.drop (xs.length - Block.size)).length = Block.size := by
    simp only [List.length_drop, Block.size]
    omega
  have hfront : (xs.take (xs.length - Block.size)).length % Block.size = 0 := by
    simp only [List.length_take, Block.size]
    omega
  have hblocks : blocks (xs.drop (xs.length - Block.size)) =
      [Block.ofBytes (xs.drop (xs.length - Block.size))] := by
    rw [blocks, hlast, Nat.div_self (by decide), Block.split, Block.split,
      List.take_of_length_le (Nat.le_of_eq hlast)]
  calc
    (nextVector vector xs).toList
        = (nextVector vector
            (xs.take (xs.length - Block.size) ++ xs.drop (xs.length - Block.size))).toList := by
          rw [List.take_append_drop]
    _ = xs.drop (xs.length - Block.size) := by
          rw [nextVector_append hfront, nextVector, hblocks, List.getLastD_cons, List.getLastD_nil,
            Block.toList_ofBytes hlast]

theorem length_flatten_whole {spans : List Bytes} (h : ∀ c ∈ spans, c.length % Block.size = 0) :
    spans.flatten.length % Block.size = 0 := by
  induction spans with
  | nil => rfl
  | cons c spans ih =>
      rw [List.forall_mem_cons] at h
      have hrest := ih h.2
      have hfirst := h.1
      rw [List.flatten_cons, List.length_append]
      simp only [Block.size] at hfirst hrest ⊢
      omega

/-- What follows spans of whole blocks is chained after the last block of the last of them. -/
theorem toList_nextVector_flatten {spans : List Bytes}
    (h : ∀ c ∈ spans, 0 < c.length ∧ c.length % Block.size = 0) {last : Bytes}
    (hlast : last ∈ spans.getLast?) :
    (nextVector vector spans.flatten).toList = last.drop (last.length - Block.size) := by
  obtain ⟨front, rfl⟩ := List.getLast?_eq_some_iff.mp hlast
  simp only [List.forall_mem_append, List.forall_mem_singleton] at h
  obtain ⟨hfront, hpos, hwhole⟩ := h
  rw [List.flatten_append, List.flatten_singleton,
    nextVector_append (length_flatten_whole fun c hc => (hfront c hc).2),
    toList_nextVector hpos hwhole]

theorem decrypt?_of_blocks (hpos : 0 < xs.length) (h : xs.length % Block.size = 0) :
    decrypt? key vector xs = some (plaintext key vector xs, nextVector vector xs) := by
  rw [decrypt?, if_neg (by omega)]

end Chain

end FirmwareUpdate
