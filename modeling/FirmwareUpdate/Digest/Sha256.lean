import FirmwareUpdate.Bytes.Fixed

/-!
# SHA-256

The digest of a message that arrives in pieces. A `Hasher` compresses every whole block of 64 bytes
it has seen and keeps the rest; `finish` pads that rest as the standard says. How the message was
cut makes no difference, since the pieces are only ever appended to what is left over.
-/

namespace FirmwareUpdate

abbrev Digest := Vector UInt8 32

namespace Sha256

def digestSize : Nat := 32

def blockSize : Nat := 64

/-- The eight words that a digest is made from. -/
structure State where
  a : UInt32
  b : UInt32
  c : UInt32
  d : UInt32
  e : UInt32
  f : UInt32
  g : UInt32
  h : UInt32
deriving DecidableEq, Repr

/-- The state before the first block: the fractions of the square roots of the first eight
primes. -/
def State.initial : State :=
  ⟨0x6a09e667, 0xbb67ae85, 0x3c6ef372, 0xa54ff53a,
   0x510e527f, 0x9b05688c, 0x1f83d9ab, 0x5be0cd19⟩

/-- One constant a round: the fractions of the cube roots of the first 64 primes. -/
def roundConstants : List UInt32 :=
  [0x428a2f98, 0x71374491, 0xb5c0fbcf, 0xe9b5dba5, 0x3956c25b, 0x59f111f1,
   0x923f82a4, 0xab1c5ed5, 0xd807aa98, 0x12835b01, 0x243185be, 0x550c7dc3,
   0x72be5d74, 0x80deb1fe, 0x9bdc06a7, 0xc19bf174, 0xe49b69c1, 0xefbe4786,
   0x0fc19dc6, 0x240ca1cc, 0x2de92c6f, 0x4a7484aa, 0x5cb0a9dc, 0x76f988da,
   0x983e5152, 0xa831c66d, 0xb00327c8, 0xbf597fc7, 0xc6e00bf3, 0xd5a79147,
   0x06ca6351, 0x14292967, 0x27b70a85, 0x2e1b2138, 0x4d2c6dfc, 0x53380d13,
   0x650a7354, 0x766a0abb, 0x81c2c92e, 0x92722c85, 0xa2bfe8a1, 0xa81a664b,
   0xc24b8b70, 0xc76c51a3, 0xd192e819, 0xd6990624, 0xf40e3585, 0x106aa070,
   0x19a4c116, 0x1e376c08, 0x2748774c, 0x34b0bcb5, 0x391c0cb3, 0x4ed8aa4a,
   0x5b9cca4f, 0x682e6ff3, 0x748f82ee, 0x78a5636f, 0x84c87814, 0x8cc70208,
   0x90befffa, 0xa4506ceb, 0xbef9a3f7, 0xc67178f2]

/-- Rotates a word to the right by a number of places below 32. -/
def rotateRight (w : UInt32) (places : UInt32) : UInt32 :=
  (w >>> places) ||| (w <<< (32 - places))

/-! ### Compression -/

/-- The word that follows sixteen words of the message schedule. -/
def nextWord (w : Vector UInt32 16) : UInt32 :=
  let s₀ := rotateRight w[1] 7 ^^^ rotateRight w[1] 18 ^^^ (w[1] >>> 3)
  let s₁ := rotateRight w[14] 17 ^^^ rotateRight w[14] 19 ^^^ (w[14] >>> 10)
  w[0] + s₀ + w[9] + s₁

/-- The first `count` words of the message schedule that begins with sixteen words. -/
def schedule : Nat → Vector UInt32 16 → List UInt32
  | 0, _ => []
  | count + 1, w => w[0] :: schedule count (w.tail.push (nextWord w))

/-- One round, with the sum of its constant and its word of the schedule. -/
def round (s : State) (kw : UInt32) : State :=
  let sum₁ := rotateRight s.e 6 ^^^ rotateRight s.e 11 ^^^ rotateRight s.e 25
  let choice := (s.e &&& s.f) ^^^ (~~~s.e &&& s.g)
  let t₁ := s.h + sum₁ + choice + kw
  let sum₀ := rotateRight s.a 2 ^^^ rotateRight s.a 13 ^^^ rotateRight s.a 22
  let majority := (s.a &&& s.b) ^^^ (s.a &&& s.c) ^^^ (s.b &&& s.c)
  ⟨t₁ + (sum₀ + majority), s.a, s.b, s.c, s.d + t₁, s.e, s.f, s.g⟩

def State.add (s t : State) : State :=
  ⟨s.a + t.a, s.b + t.b, s.c + t.c, s.d + t.d, s.e + t.e, s.f + t.f, s.g + t.g, s.h + t.h⟩

/-- The words of a run of bytes, highest byte first. A last word with less than four bytes is left
out. -/
def words : Bytes → List UInt32
  | b₀ :: b₁ :: b₂ :: b₃ :: rest =>
    LittleEndian.decode32 b₃ b₂ b₁ b₀ :: words rest
  | _ => []

/-- The bytes of a word, highest first. -/
def wordBytes (w : UInt32) : Bytes := (LittleEndian.encode32 w).reverse

/-- Adds one block of the message to the state. -/
def compress (s : State) (block : Bytes) : State :=
  let ws := words block
  let first := Vector.ofFn fun i : Fin 16 => ws.getD i.val 0
  s.add ((List.zipWith (· + ·) roundConstants (schedule 64 first)).foldl round s)

/-- Adds the first `count` blocks of a run of bytes to the state. -/
def compressBlocks : Nat → State → Bytes → State
  | 0, s, _ => s
  | count + 1, s, bytes =>
    compressBlocks count (compress s (bytes.take blockSize)) (bytes.drop blockSize)

/-! ### Messages in pieces -/

/-- A message seen so far. -/
structure Hasher where
  /-- The state after the whole blocks. -/
  state : State := State.initial
  /-- The bytes after the last whole block. -/
  rest : Bytes := []
  length : Nat := 0
deriving DecidableEq, Repr

/-- Appends bytes to the message. -/
def Hasher.update (hasher : Hasher) (bytes : Bytes) : Hasher :=
  let pending := hasher.rest ++ bytes
  let whole := pending.length / blockSize
  { state := compressBlocks whole hasher.state pending
    rest := pending.drop (whole * blockSize)
    length := hasher.length + bytes.length }

/-- What the standard appends to a message of the given length: a one bit, zeros up to eight bytes
before the end of a block, and the length in bits. -/
def padding (length : Nat) : Bytes :=
  0x80 :: List.replicate ((119 - length % blockSize) % blockSize) 0 ++
    (LittleEndian.digits 8 (8 * length)).reverse

def State.digest (s : State) : Digest :=
  Bytes.overlay (Vector.replicate 32 0) 0 (wordBytes s.a ++ wordBytes s.b ++ wordBytes s.c ++ wordBytes s.d ++
    wordBytes s.e ++ wordBytes s.f ++ wordBytes s.g ++ wordBytes s.h)

def Hasher.finish (hasher : Hasher) : Digest :=
  (hasher.update (padding hasher.length)).state.digest

/-- The digest of a message. -/
def hash (message : Bytes) : Digest := (({} : Hasher).update message).finish

end Sha256

end FirmwareUpdate
