import FirmwareUpdate.Boot.Record
import FirmwareUpdate.Proofs.Wire

/-!
# Boot records and byte strings

A record is read from the first 33 of at least 36 bytes. Each of them belongs to one field, and is read
back as it was written; the three bytes in reserve are read by nobody and written as zero.
-/

namespace FirmwareUpdate

namespace LittleEndian

/-- Runs of bytes of one length that stand for one number are the same. -/
theorem value_injective {xs ys : Bytes} (hlength : xs.length = ys.length)
    (h : value xs = value ys) : xs = ys := by
  rw [← digits_value xs, ← digits_value ys, hlength, h]

end LittleEndian

namespace BootRecord

variable {r r' : BootRecord} {bytes rest : Bytes} {word : UInt32}

/-! ### Reading and writing -/

theorem takeWord?_append (word : UInt32) (rest : Bytes) :
    takeWord? (LittleEndian.encode32 word ++ rest) = some (word, rest) := by
  obtain ⟨b₀, b₁, b₂, b₃, hbytes, hword⟩ := LittleEndian.decode32_encode32 word
  rw [hbytes]
  simp only [List.cons_append, List.nil_append, takeWord?, hword]

theorem eq_append_of_takeWord? (h : takeWord? bytes = some (word, rest)) :
    bytes = LittleEndian.encode32 word ++ rest := by
  unfold takeWord? at h
  split at h
  · cases h
    rw [LittleEndian.encode32_decode32]
    rfl
  · simp at h

/-- The bytes that the fields of a record are written as. -/
def front (r : BootRecord) : Bytes := r.words.flatMap LittleEndian.encode32 ++ [r.size]

def frontSize : Nat := 33

theorem front_eq (r : BootRecord) :
    r.front = LittleEndian.encode32 r.stackTop ++ (LittleEndian.encode32 r.resetVector ++
      (LittleEndian.encode32 r.nmi ++ (LittleEndian.encode32 r.hardFault ++
        (LittleEndian.encode32 r.tag ++ (LittleEndian.encode32 r.vectorTable ++
          (LittleEndian.encode32 r.timestamp ++ (LittleEndian.encode32 r.appVersion ++
            [r.size]))))))) := by
  simp [front, words]

@[simp] theorem length_front (r : BootRecord) : r.front.length = frontSize := by
  simp [front, words, frontSize]

theorem serialize_eq (r : BootRecord) : r.serialize = r.front ++ [0, 0, 0] := by
  simp [serialize, front]

/-- Reading gives a record exactly for its front bytes with three bytes or more behind them. -/
theorem parse?_eq_some_iff :
    parse? bytes = some r ↔ ∃ rest, 3 ≤ rest.length ∧ bytes = r.front ++ rest := by
  constructor
  · intro h
    simp only [parse?, Option.bind_eq_bind, Option.bind_eq_some_iff, Prod.exists] at h
    obtain ⟨_, _, h₁, _, _, h₂, _, _, h₃, _, _, h₄, _, _, h₅, _, _, h₆, _, _, h₇, _, _, h₈, h⟩ := h
    split at h
    · next b₁ b₂ b₃ rest =>
        cases h
        refine ⟨b₁ :: b₂ :: b₃ :: rest, by simp, ?_⟩
        rw [eq_append_of_takeWord? h₁, eq_append_of_takeWord? h₂, eq_append_of_takeWord? h₃,
          eq_append_of_takeWord? h₄, eq_append_of_takeWord? h₅, eq_append_of_takeWord? h₆,
          eq_append_of_takeWord? h₇, eq_append_of_takeWord? h₈, front_eq]
        simp
    · simp at h
  · rintro ⟨rest, hrest, rfl⟩
    match rest, hrest with
    | _ :: _ :: _ :: rest, _ =>
        simp only [front_eq, List.append_assoc, parse?, takeWord?_append, Option.bind_eq_bind,
          Option.bind_some, List.cons_append, List.nil_append]

theorem parse?_serialize_append (r : BootRecord) (bytes : Bytes) :
    parse? (r.serialize ++ bytes) = some r := by
  refine parse?_eq_some_iff.mpr ⟨0 :: 0 :: 0 :: bytes, by simp, ?_⟩
  rw [serialize_eq]
  simp

/-- Enough bytes begin with as many words as one likes. -/
theorem exists_words (count : Nat) (h : 4 * count ≤ bytes.length) :
    ∃ (words : List UInt32) (rest : Bytes),
      words.length = count ∧ bytes = words.flatMap LittleEndian.encode32 ++ rest := by
  induction count generalizing bytes with
  | zero => exact ⟨[], bytes, rfl, rfl⟩
  | succ count ih =>
      match bytes, h with
      | b₀ :: b₁ :: b₂ :: b₃ :: rest, h =>
          simp only [List.length_cons] at h
          obtain ⟨words, rest', hlength, hrest⟩ := ih (show 4 * count ≤ rest.length by omega)
          refine ⟨LittleEndian.decode32 b₀ b₁ b₂ b₃ :: words, rest', by simp [hlength], ?_⟩
          rw [List.flatMap_cons, LittleEndian.encode32_decode32, hrest]
          rfl

/-- Any 33 bytes are the front of a record. -/
theorem exists_front (h : frontSize ≤ bytes.length) : ∃ (r : BootRecord) (rest : Bytes),
    bytes = r.front ++ rest := by
  simp only [frontSize] at h
  obtain ⟨words, rest, hlength, rfl⟩ := exists_words 8 (show 4 * 8 ≤ bytes.length by omega)
  match words, hlength with
  | [stackTop, resetVector, nmi, hardFault, tag, vectorTable, timestamp, appVersion], _ =>
      match rest, h with
      | [], h => simp at h
      | size :: rest, _ =>
          refine ⟨⟨stackTop, resetVector, nmi, hardFault, tag, vectorTable, timestamp, appVersion,
            size⟩, rest, ?_⟩
          simp [front, BootRecord.words]

theorem parse?_eq_none_iff : parse? bytes = none ↔ bytes.length < byteSize := by
  constructor
  · intro h
    by_contra hlong
    simp only [byteSize] at hlong
    obtain ⟨r, rest, rfl⟩ := exists_front (show frontSize ≤ bytes.length by simp only [frontSize]; omega)
    rw [List.length_append, length_front, frontSize] at hlong
    rw [parse?_eq_some_iff.mpr ⟨rest, by omega, rfl⟩] at h
    simp at h
  · intro h
    rw [Option.eq_none_iff_forall_not_mem]
    intro r hr
    obtain ⟨rest, hrest, rfl⟩ := parse?_eq_some_iff.mp hr
    rw [List.length_append, length_front, frontSize, byteSize] at h
    omega

theorem exists_parse? (h : byteSize ≤ bytes.length) : ∃ r, parse? bytes = some r :=
  Option.ne_none_iff_exists'.mp fun hnone =>
    absurd h (Nat.not_le_of_lt (parse?_eq_none_iff.mp hnone))

theorem front_of_parse? (h : parse? bytes = some r) : bytes.take frontSize = r.front := by
  obtain ⟨rest, _, rfl⟩ := parse?_eq_some_iff.mp h
  exact List.take_left' (length_front r)

/-! ### Fields -/

/-- A field of a record. -/
inductive Field where
  | stackTop
  | resetVector
  | nmi
  | hardFault
  | tag
  | vectorTable
  | timestamp
  | appVersion
  | size
deriving DecidableEq, Repr

/-- Where the field stands in a record. -/
def Field.offset : Field → Nat
  | stackTop => 0
  | resetVector => 4
  | nmi => 8
  | hardFault => 12
  | tag => 16
  | vectorTable => 20
  | timestamp => 24
  | appVersion => 28
  | size => 32

example : Field.tag.offset = tagOffset.toNat := rfl

/-- How many bytes the field takes. -/
def Field.width : Field → Nat
  | size => 1
  | _ => 4

/-- The byte at a position of the record belongs to the field. -/
def Field.Holds (f : Field) (i : Nat) : Prop := f.offset ≤ i ∧ i < f.offset + f.width

instance (f : Field) (i : Nat) : Decidable (f.Holds i) := inferInstanceAs (Decidable (_ ∧ _))

/-- The number in a field. -/
def get (r : BootRecord) : Field → Nat
  | .stackTop => r.stackTop.toNat
  | .resetVector => r.resetVector.toNat
  | .nmi => r.nmi.toNat
  | .hardFault => r.hardFault.toNat
  | .tag => r.tag.toNat
  | .vectorTable => r.vectorTable.toNat
  | .timestamp => r.timestamp.toNat
  | .appVersion => r.appVersion.toNat
  | .size => r.size.toNat

/-- The fields make up the record. -/
theorem ext_get (h : ∀ f, r.get f = r'.get f) : r = r' := by
  obtain ⟨_, _, _, _, _, _, _, _, _⟩ := r
  obtain ⟨_, _, _, _, _, _, _, _, _⟩ := r'
  rw [BootRecord.mk.injEq]
  exact ⟨UInt32.toNat_inj.mp (h .stackTop), UInt32.toNat_inj.mp (h .resetVector),
    UInt32.toNat_inj.mp (h .nmi), UInt32.toNat_inj.mp (h .hardFault), UInt32.toNat_inj.mp (h .tag),
    UInt32.toNat_inj.mp (h .vectorTable), UInt32.toNat_inj.mp (h .timestamp),
    UInt32.toNat_inj.mp (h .appVersion), UInt8.toNat_inj.mp (h .size)⟩

/-- The bytes of a field among the front bytes of a record. -/
def Field.slice (f : Field) (bytes : Bytes) : Bytes := (bytes.drop f.offset).take f.width

def Field.all : List Field :=
  [stackTop, resetVector, nmi, hardFault, tag, vectorTable, timestamp, appVersion, size]

theorem Field.mem_all (f : Field) : f ∈ all := by
  cases f <;> decide

/-- Every front byte belongs to one field. -/
theorem Field.exists_holds_iff {i : Nat} (h : i < frontSize) :
    ∃ f : Field, ∀ g : Field, g.Holds i ↔ g = f := by
  have hlisted : ∀ i < frontSize, ∃ f ∈ all, ∀ g ∈ all, g.Holds i ↔ g = f := by decide
  obtain ⟨f, _, hf⟩ := hlisted i h
  exact ⟨f, fun g => hf g g.mem_all⟩

theorem Field.value_slice_front (f : Field) (r : BootRecord) :
    LittleEndian.value (f.slice r.front) = r.get f := by
  cases f
  case size => rfl
  all_goals exact LittleEndian.value_encode32 _

theorem front_injective (h : r.front = r'.front) : r = r' :=
  ext_get fun f => by rw [← f.value_slice_front, ← f.value_slice_front, h]

/-- What is read depends on the front bytes alone. -/
theorem parse?_eq_parse?_iff {bytes' : Bytes} (h : byteSize ≤ bytes.length)
    (h' : byteSize ≤ bytes'.length) :
    parse? bytes = parse? bytes' ↔ bytes.take frontSize = bytes'.take frontSize := by
  obtain ⟨r, hr⟩ := exists_parse? h
  obtain ⟨r', hr'⟩ := exists_parse? h'
  rw [hr, hr', front_of_parse? hr, front_of_parse? hr', Option.some.injEq]
  exact ⟨fun heq => by rw [heq], front_injective⟩

theorem Field.slice_take (f : Field) (bytes : Bytes) :
    f.slice (bytes.take frontSize) = f.slice bytes := by
  have hwithin : f.width ≤ frontSize - f.offset := by cases f <;> decide
  rw [slice, slice, List.drop_take, List.take_take, Nat.min_eq_left hwithin]

/-- Every field is read from the bytes at its own offset. -/
theorem get_of_parse? (h : parse? bytes = some r) (f : Field) :
    r.get f = LittleEndian.value (f.slice bytes) := by
  rw [← f.slice_take bytes, front_of_parse? h, f.value_slice_front]

/-- A byte that changes is seen by the fields that hold it, and by no others. -/
theorem Field.slice_set_eq_iff {f : Field} {i : Nat} {b : UInt8} (hi : i < bytes.length)
    (hb : bytes[i]? ≠ some b) : f.slice (bytes.set i b) = f.slice bytes ↔ ¬ f.Holds i := by
  constructor
  · rintro h ⟨hle, hlt⟩
    have hat := congrArg (·[i - f.offset]?) h
    simp only [slice, List.getElem?_take, List.getElem?_drop, Nat.add_sub_cancel' hle,
      if_pos (show i - f.offset < f.width by omega), List.getElem?_set_self hi] at hat
    exact hb hat.symm
  · intro hholds
    refine List.ext_getElem? fun k => ?_
    simp only [slice, List.getElem?_take, List.getElem?_drop]
    split
    · have hne : i ≠ f.offset + k := by
        rintro rfl
        exact hholds ⟨by omega, by omega⟩
      rw [List.getElem?_set_ne hne]
    · rfl

/-- A byte that changes changes the fields that hold it, and no others. -/
theorem get_ne_iff {i : Nat} {b : UInt8} (h : parse? bytes = some r)
    (h' : parse? (bytes.set i b) = some r') (hi : i < bytes.length) (hb : bytes[i]? ≠ some b)
    (f : Field) : r'.get f ≠ r.get f ↔ f.Holds i := by
  have hlength : (f.slice (bytes.set i b)).length = (f.slice bytes).length := by
    simp [Field.slice]
  have hsame : r'.get f = r.get f ↔ f.slice (bytes.set i b) = f.slice bytes := by
    rw [get_of_parse? h, get_of_parse? h']
    exact ⟨LittleEndian.value_injective hlength, fun heq => by rw [heq]⟩
  rw [ne_eq, hsame, Field.slice_set_eq_iff hi hb, not_not]

/-- Records and byte strings correspond. A record is read back as it was written, whatever follows
it; reading fails exactly when there are too few bytes, and then writing gives the first 33 of them
back, with zeros for the reserve; so two strings are read as one record exactly when these agree, and
changing one of these bytes changes one field. -/
theorem records_correspond_to_bytes :
    (∀ (r : BootRecord) (bytes : Bytes), parse? (r.serialize ++ bytes) = some r) ∧
    (∀ bytes : Bytes, parse? bytes = none ↔ bytes.length < byteSize) ∧
    (∀ (bytes : Bytes) (r : BootRecord), parse? bytes = some r →
      r.serialize = bytes.take frontSize ++ [0, 0, 0]) ∧
    (∀ bytes bytes' : Bytes, byteSize ≤ bytes.length → byteSize ≤ bytes'.length →
      (parse? bytes = parse? bytes' ↔ bytes.take frontSize = bytes'.take frontSize)) ∧
    (∀ (bytes : Bytes) (i : Nat) (b : UInt8), byteSize ≤ bytes.length → i < frontSize →
      bytes[i]? ≠ some b →
      ∃ (r r' : BootRecord) (f : Field), parse? bytes = some r ∧ parse? (bytes.set i b) = some r' ∧
        f.Holds i ∧ ∀ g : Field, r'.get g ≠ r.get g ↔ g = f) := by
  refine ⟨parse?_serialize_append, fun _ => parse?_eq_none_iff, fun bytes r h => ?_,
    fun _ _ => parse?_eq_parse?_iff, fun bytes i b hlong hi hb => ?_⟩
  · rw [serialize_eq, front_of_parse? h]
  · obtain ⟨r, hr⟩ := exists_parse? hlong
    obtain ⟨r', hr'⟩ := exists_parse? (show byteSize ≤ (bytes.set i b).length by rwa [List.length_set])
    obtain ⟨f, hf⟩ := Field.exists_holds_iff hi
    have hlt : i < bytes.length := by
      simp only [frontSize, byteSize] at hi hlong
      omega
    refine ⟨r, r', f, hr, hr', (hf f).mpr rfl, fun g => ?_⟩
    rw [get_ne_iff hr hr' hlt hb, hf]

end BootRecord

end FirmwareUpdate
