import FirmwareUpdate.Cipher.Block
import FirmwareUpdate.Cipher.Substitution

/-!
# AES-256

The inverse cipher of the AES standard for keys of 256 bits: the image arrives encrypted and is
only ever decrypted here.
-/

namespace FirmwareUpdate.Aes256

abbrev Key := Vector UInt8 32

def keySize : Nat := 32

/-- Four bytes of the key schedule. -/
abbrev Word := Vector UInt8 4

/-- Multiplies by two in the field of 256 elements. -/
def double (b : UInt8) : UInt8 :=
  (b <<< 1) ^^^ (if b < 0x80 then 0 else 0x1b)

/-! ### Key schedule -/

def addWords (x y : Word) : Word := Vector.zipWith (· ^^^ ·) x y

def substituteWord (w : Word) : Word := w.map Substitution.forward

def rotateWord (w : Word) : Word := #v[w[1], w[2], w[3], w[0]]

/-- The eight words of the schedule that follow eight others, with a round constant. -/
def nextWords (constant : UInt8) (w : Vector Word 8) : Vector Word 8 :=
  let v₀ := addWords w[0] (addWords (substituteWord (rotateWord w[7])) #v[constant, 0, 0, 0])
  let v₁ := addWords w[1] v₀
  let v₂ := addWords w[2] v₁
  let v₃ := addWords w[3] v₂
  let v₄ := addWords w[4] (substituteWord v₃)
  let v₅ := addWords w[5] v₄
  let v₆ := addWords w[6] v₅
  let v₇ := addWords w[7] v₆
  #v[v₀, v₁, v₂, v₃, v₄, v₅, v₆, v₇]

/-- The schedule from eight words on: these words, then the ones each round constant leads to. -/
def schedule (w : Vector Word 8) : List UInt8 → List Word
  | [] => w.toList
  | constant :: constants => w.toList ++ schedule (nextWords constant w) constants

/-- The seven round constants: one, doubled again and again. -/
def roundConstants : List UInt8 := [0x01, 0x02, 0x04, 0x08, 0x10, 0x20, 0x40]

/-- The fifteen round keys, first to last. -/
def roundKeys (key : Key) : List Block :=
  let words := Vector.ofFn fun i : Fin 8 => Vector.ofFn fun j : Fin 4 => key[4 * i.val + j.val]
  Block.split 15 ((schedule words roundConstants).flatMap Vector.toList)

/-! ### Rounds -/

/-- Rotates row `r` of the state to the right by `r` places. Byte `r + 4 * c` is in row `r` and
column `c`. -/
def unshiftRows (s : Block) : Block :=
  Vector.ofFn fun i => s.get ⟨(i.val + 16 - 4 * (i.val % 4)) % 16, Nat.mod_lt _ (by decide)⟩

def unsubstitute (s : Block) : Block := s.map Substitution.inverse

/-- Multiplies a column by the inverse of the mixing matrix, and gives its first byte. -/
def unmix (a b c d : UInt8) : UInt8 :=
  let two := double (a ^^^ b)
  let four := double (double (a ^^^ c))
  let eight := double (double (double (a ^^^ b ^^^ c ^^^ d)))
  eight ^^^ four ^^^ two ^^^ b ^^^ c ^^^ d

def unmixColumns (s : Block) : Block :=
  Vector.ofFn fun i =>
    let byte (k : Nat) : UInt8 :=
      s.get ⟨(4 * (i.val / 4) + (i.val + k) % 4) % 16, Nat.mod_lt _ (by decide)⟩
    unmix (byte 0) (byte 1) (byte 2) (byte 3)

/-- Undoes the rounds that used the given keys, last round first. The first round of the cipher
mixes no columns on the way back. -/
def undoRounds : List Block → Block → Block
  | [], s => s
  | [k], s => Block.xor (unsubstitute (unshiftRows s)) k
  | k :: ks, s => undoRounds ks (unmixColumns (Block.xor (unsubstitute (unshiftRows s)) k))

/-- Decrypts a block with the round keys in the order of decryption. -/
def decryptWith : List Block → Block → Block
  | [], s => s
  | k :: ks, s => undoRounds ks (Block.xor s k)

def decryptBlock (key : Key) (block : Block) : Block :=
  decryptWith (roundKeys key).reverse block

end FirmwareUpdate.Aes256
