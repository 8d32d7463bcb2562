import FirmwareUpdate.Address
import FirmwareUpdate.Board
import FirmwareUpdate.Digest.Sha256

/-!
# The digest of a range of flash

Flash is read and hashed in pieces of at most 64 bytes, each byte once and in order.
-/

namespace FirmwareUpdate.Region

variable {σ : Type}

def pieceSize : Nat := 64

/-- Hashes `remaining` bytes from an address on. -/
def hashFrom (chip : NorFlash σ) (hasher : Sha256.Hasher) (address : UInt32) (remaining : Nat) :
    Attempt (Board σ) Sha256.Hasher :=
  if remaining = 0 then
    pure hasher
  else do
    let length := min pieceSize remaining
    let piece ← Board.read chip address length
    hashFrom chip (hasher.update piece.toList) (address + UInt32.ofNat length) (remaining - length)
termination_by remaining
decreasing_by simp only [pieceSize]; omega

/-- The digest of `size` bytes from an address on. A range that leaves the address space is out of
bounds. -/
def digest (chip : NorFlash σ) (address size : UInt32) : Attempt (Board σ) Digest :=
  match Address.add? address size with
  | none => throw (.flash .outOfBounds)
  | some _ => do
    let hasher ← hashFrom chip {} address size.toNat
    pure hasher.finish

end FirmwareUpdate.Region
