import FirmwareUpdate.Board
import FirmwareUpdate.Cipher.Chain
import FirmwareUpdate.UnitBuffer

/-!
# Assembling units

Ciphertext is collected in the unit buffer until the unit is left or the transfer ends. Then the
pending span is decrypted in place and the unit is erased and programmed in one go. Another unit is
taken up only after that, and begins as a copy of what flash holds.

A commit takes the pending span whatever comes of it. When decryption, erasing or programming fails,
the buffer no longer agrees with flash and is given up too; the chaining vector stays where decryption
left it.
-/

namespace FirmwareUpdate

/-- The unit under assembly and the chaining vector for its pending bytes. -/
structure Assembly (page : Nat) where
  buffer : Option (UnitBuffer page) := none
  /-- The bytes of the buffer that were received and are not yet programmed. -/
  pending : Option Span := none
  /-- The vector that the next span is chained after. -/
  vector : Block := Block.zero
deriving DecidableEq

namespace Assembly

variable {page : Nat} {σ : Type}

/-- Gives up the buffered unit. -/
def release (a : Assembly page) : Assembly page := { a with buffer := none }

/-- Takes the pending span away. -/
def settled (a : Assembly page) : Assembly page := { a with pending := none }

/-- Forgets the buffered unit with all that is pending in it. -/
def discard (a : Assembly page) : Assembly page := { a with buffer := none, pending := none }

def base? (a : Assembly page) : Option UInt32 := a.buffer.map (·.base)

/-- The address of the first pending byte. -/
def pendingFrom (a : Assembly page) : Option UInt32 :=
  match a.buffer, a.pending with
  | some u, some s => some (u.base + UInt32.ofNat s.start)
  | _, _ => none

def reprogram (chip : NorFlash σ) (u : UnitBuffer page) (stop : UInt32) :
    Attempt (Board σ) Unit := do
  Board.erase chip u.base stop
  Board.write chip u.base u.bytes.toList

/-- Puts a unit into flash, and keeps it as the buffered unit only if that worked. -/
def program (chip : NorFlash σ) (u : UnitBuffer page) : Attempt (Assembly page × Board σ) Unit :=
  fun (a, board) =>
    match Address.add? u.base (UInt32.ofNat page) with
    | none => .error (.flash .outOfBounds) (a.release, board)
    | some stop =>
      match reprogram chip u stop board with
      | .ok _ board => .ok () ({ a with buffer := some u }, board)
      | .error e board => .error e (a.release, board)

/-- Decrypts the pending bytes and puts the unit into flash. With nothing pending, nothing is
done. -/
def commit (key : Aes256.Key) (chip : NorFlash σ) : Attempt (Assembly page × Board σ) Unit :=
  fun (a, board) =>
    match a.buffer, a.pending with
    | some u, some s =>
      match Chain.decrypt? key a.vector (u.spanBytes s) with
      | none =>
        .error (.unaligned (u.base + UInt32.ofNat s.start) (UInt32.ofNat s.length))
          (a.settled.release, board)
      | some (plain, vector) => program chip (u.settle s plain) ({ a.settled with vector }, board)
    | _, _ => .ok () (a.settled, board)

/-- Buffers the unit that starts at an address, as flash holds it. -/
def load (chip : NorFlash σ) (base : UInt32) : Attempt (Assembly page × Board σ) Unit :=
  fun (a, board) =>
    match Board.read chip base page board with
    | .ok bytes board => .ok () ({ a with buffer := some { base, bytes } }, board)
    | .error e board => .error e (a.release, board)

/-- Makes the unit that contains an address the buffered one. -/
def seek (key : Aes256.Key) (chip : NorFlash σ) (address : UInt32) :
    Attempt (Assembly page × Board σ) Unit := do
  let (a, _) ← get
  if a.base? = some (Address.unitBase page address) then
    pure ()
  else
    commit key chip
    load chip (Address.unitBase page address)

/-- The assembly with bytes laid into its unit from an address on. What they cover is pending. -/
def lay (a : Assembly page) (u : UnitBuffer page) (address : UInt32) (bytes : Bytes) :
    Assembly page :=
  { a with
    buffer := some (u.insert address bytes)
    pending := some (Span.extend a.pending (u.spanAt address bytes.length)) }

/-- Lays bytes into the buffered unit from an address on, and gives the number that fitted. -/
def insert (address : UInt32) (bytes : Bytes) : Attempt (Assembly page × Board σ) Nat :=
  fun (a, board) =>
    match a.buffer with
    | some u =>
      if u.Contains address then
        .ok (u.room address bytes.length) (a.lay u address bytes, board)
      else
        .error .noTransfer (a, board)
    | none => .error .noTransfer (a, board)

end Assembly

end FirmwareUpdate
