import FirmwareUpdate.Proofs.Stream
import Mathlib.Data.List.Forall2

/-!
# A stream cut into spans

Spans are decrypted in place, one after another, and each is chained after the one before. However a
stream is cut, its spans come to hold what the whole stream decrypts to. A span that is refused stays as it
is, and what comes after it is decrypted as if it had never been tried.
-/

namespace FirmwareUpdate.Chain

/-- The span is one or more whole blocks. -/
def Whole (span : Bytes) : Prop := 0 < span.length ∧ span.length % Block.size = 0

instance (span : Bytes) : Decidable (Whole span) := inferInstanceAs (Decidable (_ ∧ _))

/-- What came of a span that was to be decrypted. -/
structure Decryption where
  taken : Bool
  /-- The bytes of the span afterwards. -/
  bytes : Bytes
deriving DecidableEq, Repr

/-- Decrypts a span in place, and gives the vector for what follows. -/
def decryptInPlace (key : Aes256.Key) (vector : Block) (span : Bytes) : Decryption × Block :=
  match decrypt? key vector span with
  | some (plain, next) => (⟨true, plain⟩, next)
  | none => (⟨false, span⟩, vector)

/-- Decrypts spans one after another, each in place. -/
def decryptEach (key : Aes256.Key) : Block → List Bytes → List Decryption × Block
  | vector, [] => ([], vector)
  | vector, span :: spans =>
    let first := decryptInPlace key vector span
    let rest := decryptEach key first.2 spans
    (first.1 :: rest.1, rest.2)

variable {key : Aes256.Key} {vector : Block} {span : Bytes} {spans : List Bytes}

theorem decryptInPlace_of_whole (h : Whole span) :
    decryptInPlace key vector span = (⟨true, plaintext key vector span⟩, nextVector vector span) := by
  rw [decryptInPlace, decrypt?_of_blocks h.1 h.2]

theorem decryptInPlace_of_not_whole (h : ¬Whole span) :
    decryptInPlace key vector span = (⟨false, span⟩, vector) := by
  have hrefused : span.length = 0 ∨ span.length % Block.size ≠ 0 := by
    unfold Whole at h
    omega
  rw [decryptInPlace, decrypt?, if_pos hrefused]

/-- The span was decrypted if it is whole, with as many bytes as before, and is as it was otherwise. -/
def Decryption.Treats (span : Bytes) (result : Decryption) : Prop :=
  result.taken = decide (Whole span) ∧ result.bytes.length = span.length ∧
    (¬Whole span → result.bytes = span)

theorem decryptInPlace_treats (key : Aes256.Key) (vector : Block) (span : Bytes) :
    (decryptInPlace key vector span).1.Treats span := by
  by_cases h : Whole span
  · rw [decryptInPlace_of_whole h]
    exact ⟨by simp [h], length_plaintext key vector h.2, fun hnot => absurd h hnot⟩
  · rw [decryptInPlace_of_not_whole h]
    exact ⟨by simp [h], rfl, fun _ => rfl⟩

theorem decryptEach_treats (key : Aes256.Key) (vector : Block) (spans : List Bytes) :
    List.Forall₂ (fun span result => Decryption.Treats span result) spans
      (decryptEach key vector spans).1 := by
  induction spans generalizing vector with
  | nil => exact .nil
  | cons span spans ih => exact .cons (decryptInPlace_treats key vector span) (ih _)

/-- Spans that are refused could as well have been left out. -/
theorem decryptEach_filter_whole (key : Aes256.Key) (vector : Block) (spans : List Bytes) :
    decryptEach key vector (spans.filter fun span => Whole span) =
      ((decryptEach key vector spans).1.filter fun result => result.taken,
        (decryptEach key vector spans).2) := by
  induction spans generalizing vector with
  | nil => rfl
  | cons span spans ih =>
      by_cases h : Whole span
      · rw [List.filter_cons_of_pos (by simpa using h), decryptEach, decryptEach,
          decryptInPlace_of_whole h, ih, List.filter_cons_of_pos rfl]
      · rw [List.filter_cons_of_neg (by simpa using h), decryptEach, decryptInPlace_of_not_whole h, ih,
          List.filter_cons_of_neg (by simp)]

/-- Spans of whole blocks come to hold what the stream they make up decrypts to. -/
theorem decryptEach_whole (key : Aes256.Key) (vector : Block) (h : ∀ span ∈ spans, Whole span) :
    (decryptEach key vector spans).1.flatMap (fun result => result.bytes) =
        plaintext key vector spans.flatten ∧
      (decryptEach key vector spans).2 = nextVector vector spans.flatten := by
  induction spans generalizing vector with
  | nil => simp [decryptEach]
  | cons span spans ih =>
      rw [List.forall_mem_cons] at h
      obtain ⟨hbytes, hvector⟩ := ih (nextVector vector span) h.2
      rw [decryptEach, decryptInPlace_of_whole h.1, List.flatMap_cons, List.flatten_cons]
      exact ⟨by rw [hbytes, plaintext_append h.1.2], by rw [hvector, nextVector_append h.1.2]⟩

theorem whole_flatten (hne : spans ≠ []) (h : ∀ span ∈ spans, Whole span) : Whole spans.flatten := by
  refine ⟨?_, length_flatten_whole fun span hspan => (h span hspan).2⟩
  obtain ⟨span, rest, rfl⟩ := List.exists_cons_of_ne_nil hne
  have hpos := (h span List.mem_cons_self).1
  rw [List.flatten_cons, List.length_append]
  omega

/-- Spans are tried one after another: those of whole blocks are decrypted, and the others stay as they
are. What the former come to hold, and the vector left for what follows, are the same as without the
latter, and the same as if the stream they make up were decrypted as a whole. -/
theorem decryptEach_insensitive_to_cuts (key : Aes256.Key) (vector : Block) (spans : List Bytes) :
    let (results, next) := decryptEach key vector spans
    let taken := results.filter fun result => result.taken
    let cut := spans.filter fun span => Whole span
    List.Forall₂ (fun span result => Decryption.Treats span result) spans results ∧
      decryptEach key vector cut = (taken, next) ∧
      (cut ≠ [] → decrypt? key vector cut.flatten =
        some (taken.flatMap fun result => result.bytes, next)) ∧
      (cut = [] → next = vector) := by
  have hwhole : ∀ span ∈ spans.filter fun span => Whole span, Whole span := by
    intro span hspan
    simpa using (List.mem_filter.mp hspan).2
  have hfiltered := decryptEach_filter_whole key vector spans
  obtain ⟨hbytes, hnext⟩ := decryptEach_whole key vector hwhole
  rw [hfiltered] at hbytes hnext
  refine ⟨decryptEach_treats key vector spans, hfiltered, fun hne => ?_, fun hnil => ?_⟩
  · obtain ⟨hpos, hblocks⟩ := whole_flatten hne hwhole
    rw [decrypt?_of_blocks hpos hblocks, hbytes, hnext]
  · rw [hnext, hnil]
    rfl

/-- Two blocks, half a block and nothing, and one more block. -/
example :
    let spans : List Bytes := [List.replicate 32 1, List.replicate 8 2, [], List.replicate 16 3]
    (decryptEach (Vector.replicate 32 0) Block.zero spans).1.map (fun result => result.taken) =
        [true, false, false, true] ∧
      (decryptEach (Vector.replicate 32 0) Block.zero spans).2 = Vector.replicate 16 3 := by
  decide +kernel

end FirmwareUpdate.Chain
