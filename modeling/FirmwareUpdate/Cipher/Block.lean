import FirmwareUpdate.Bytes.Fixed

/-!
# Cipher blocks

The cipher works on blocks of sixteen bytes.
-/

namespace FirmwareUpdate

abbrev Block := Vector UInt8 16

namespace Block

def size : Nat := 16

def zero : Block := Vector.replicate 16 0

def xor (x y : Block) : Block := Vector.zipWith (· ^^^ ·) x y

/-- The first sixteen of the given bytes; zeros stand for what is missing. -/
def ofBytes (bytes : Bytes) : Block := Bytes.overlay zero 0 bytes

/-- The first `count` blocks of the given bytes. -/
def split : Nat → Bytes → List Block
  | 0, _ => []
  | count + 1, bytes => ofBytes (bytes.take size) :: split count (bytes.drop size)

def join (blocks : List Block) : Bytes := blocks.flatMap Vector.toList

@[simp] theorem length_split (count : Nat) (bytes : Bytes) : (split count bytes).length = count := by
  induction count generalizing bytes with
  | zero => rfl
  | succ count ih => simp [split, ih]

@[simp] theorem length_join (blocks : List Block) : (join blocks).length = 16 * blocks.length := by
  induction blocks with
  | nil => rfl
  | cons b bs ih =>
      simp only [join, List.flatMap_cons, List.length_append, List.length_cons] at ih ⊢
      rw [ih, Vector.length_toList]
      omega

end Block

end FirmwareUpdate
