import FirmwareUpdate.Cipher.Aes256

/-!
# Chained decryption

Cipher block chaining: each decrypted block is added to the ciphertext block before it, and the
first one to a chaining vector. The last ciphertext block of a span is the vector of the span that
follows, so spans decrypted one after another read as one stream.
-/

namespace FirmwareUpdate.Chain

/-- Decrypts blocks that were chained after a vector, with `cipher` for single blocks. -/
def decryptBlocks (cipher : Block → Block) : Block → List Block → List Block
  | _, [] => []
  | vector, c :: cs => Block.xor (cipher c) vector :: decryptBlocks cipher c cs

/-- The blocks of a span. Bytes after the last whole block are left out. -/
def blocks (span : Bytes) : List Block := Block.split (span.length / Block.size) span

/-- The decrypted bytes of a span of whole blocks. -/
def plaintext (key : Aes256.Key) (vector : Block) (span : Bytes) : Bytes :=
  let keys := (Aes256.roundKeys key).reverse
  Block.join (decryptBlocks (Aes256.decryptWith keys) vector (blocks span))

/-- The vector for what follows a span: its last block, or the same vector if it has none. -/
def nextVector (vector : Block) (span : Bytes) : Block := (blocks span).getLastD vector

/-- Decrypts a span, and gives the vector for what follows. A span that is empty or not a whole
number of blocks is refused. -/
def decrypt? (key : Aes256.Key) (vector : Block) (span : Bytes) : Option (Bytes × Block) :=
  if span.length = 0 ∨ span.length % Block.size ≠ 0 then none
  else some (plaintext key vector span, nextVector vector span)

@[simp] theorem length_decryptBlocks (cipher : Block → Block) (vector : Block) (cs : List Block) :
    (decryptBlocks cipher vector cs).length = cs.length := by
  induction cs generalizing vector with
  | nil => rfl
  | cons c cs ih => simp [decryptBlocks, ih]

/-- Blocks decrypted in two runs are those decrypted in one, if the second run is chained after the
last block of the first. -/
theorem decryptBlocks_append (cipher : Block → Block) (vector : Block) (cs ds : List Block) :
    decryptBlocks cipher vector (cs ++ ds) =
      decryptBlocks cipher vector cs ++ decryptBlocks cipher (cs.getLastD vector) ds := by
  induction cs generalizing vector with
  | nil => rfl
  | cons c cs ih =>
      rw [List.cons_append, decryptBlocks, ih, decryptBlocks, List.cons_append,
        List.getLastD_cons]

theorem length_plaintext (key : Aes256.Key) (vector : Block) {span : Bytes}
    (h : span.length % Block.size = 0) : (plaintext key vector span).length = span.length := by
  simp only [plaintext, Block.length_join, length_decryptBlocks, blocks, Block.length_split]
  simp only [Block.size] at h ⊢
  omega

theorem length_of_decrypt? {key : Aes256.Key} {vector next : Block} {span plain : Bytes}
    (h : decrypt? key vector span = some (plain, next)) : plain.length = span.length := by
  unfold decrypt? at h
  split at h
  · simp at h
  · next hblocks =>
      obtain ⟨rfl, -⟩ := Prod.mk.inj (Option.some.inj h)
      exact length_plaintext key vector (by omega)

end FirmwareUpdate.Chain
