import FirmwareUpdate.Bytes.LittleEndian

/-!
# Boot records

Every image begins with a record of 36 bytes: eight little-endian words, a byte with the size of
the record, and three bytes in reserve, which are written as zero and ignored when read.
-/

namespace FirmwareUpdate

/-- What the tag of a record says about its image. -/
inductive RecordTag where
  /-- Written by an update, not verified yet. -/
  | provisional
  /-- Verified and allowed to run. -/
  | confirmed
  /-- The bootloader itself. -/
  | bootloader
  /-- Any other word. -/
  | unknown (word : UInt32)
deriving DecidableEq, Repr

namespace RecordTag

def provisionalWord : UInt32 := 0xffffffa7

/-- The word of a confirmed image. Programming can make it out of the provisional word, since it
only clears bits. -/
def confirmedWord : UInt32 := 0xf765ffa7

def bootloaderWord : UInt32 := 0x00000ba7

def ofWord (word : UInt32) : RecordTag :=
  if word = provisionalWord then provisional
  else if word = confirmedWord then confirmed
  else if word = bootloaderWord then bootloader
  else unknown word

theorem ofWord_eq_confirmed_iff {word : UInt32} :
    ofWord word = confirmed ↔ word = confirmedWord := by
  unfold ofWord
  split
  · next h => simp [h, provisionalWord, confirmedWord]
  · split <;> simp_all
    split <;> simp

example : provisionalWord &&& confirmedWord = confirmedWord := by decide

end RecordTag

/-- The record at the start of an image. -/
structure BootRecord where
  stackTop : UInt32
  resetVector : UInt32
  nmi : UInt32
  hardFault : UInt32
  /-- The word that says whether the image may run. -/
  tag : UInt32
  vectorTable : UInt32
  /-- When the image was built. -/
  timestamp : UInt32
  appVersion : UInt32
  /-- The size of the record, as it was written. -/
  size : UInt8
deriving DecidableEq, Repr

namespace BootRecord

def byteSize : Nat := 36

/-- Where the tag stands in a record. -/
def tagOffset : UInt32 := 16

/-- The first word of a run of bytes, and what follows it. -/
def takeWord? : Bytes → Option (UInt32 × Bytes)
  | b₀ :: b₁ :: b₂ :: b₃ :: rest => some (LittleEndian.decode32 b₀ b₁ b₂ b₃, rest)
  | _ => none

/-- Reads the record at the front of a run of bytes, if all of it is there. -/
def parse? (bytes : Bytes) : Option BootRecord := do
  let (stackTop, bytes) ← takeWord? bytes
  let (resetVector, bytes) ← takeWord? bytes
  let (nmi, bytes) ← takeWord? bytes
  let (hardFault, bytes) ← takeWord? bytes
  let (tag, bytes) ← takeWord? bytes
  let (vectorTable, bytes) ← takeWord? bytes
  let (timestamp, bytes) ← takeWord? bytes
  let (appVersion, bytes) ← takeWord? bytes
  match bytes with
  | size :: _ :: _ :: _ :: _ =>
    some
      { stackTop, resetVector, nmi, hardFault, tag, vectorTable, timestamp, appVersion, size }
  | _ => none

def words (r : BootRecord) : List UInt32 :=
  [r.stackTop, r.resetVector, r.nmi, r.hardFault, r.tag, r.vectorTable, r.timestamp, r.appVersion]

def serialize (r : BootRecord) : Bytes :=
  r.words.flatMap LittleEndian.encode32 ++ [r.size, 0, 0, 0]

@[simp] theorem length_serialize (r : BootRecord) : r.serialize.length = byteSize := by
  simp [serialize, words, byteSize]

def kind (r : BootRecord) : RecordTag := RecordTag.ofWord r.tag

end BootRecord

end FirmwareUpdate
