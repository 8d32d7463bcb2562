import FirmwareUpdate.Flash.NorFlash

/-!
# Flash in memory

A flash chip that keeps its content in memory: erasing sets bytes to `0xff`, programming can only
clear bits. Single calls can be made to fail, or to report a success that did not happen.
-/

namespace FirmwareUpdate

inductive CallKind where
  | read
  | erase
  | write
deriving DecidableEq, Repr

inductive FaultEffect where
  /-- The call fails and changes nothing. -/
  | fail (error : FlashError)
  /-- The call succeeds and changes nothing. -/
  | ignore
deriving DecidableEq, Repr

/-- A fault decides the calls of one kind that touch a range. -/
structure Fault where
  kind : CallKind
  start : Nat
  length : Nat
  effect : FaultEffect
  /-- How many more calls it decides, if there is a limit. -/
  remaining : Option Nat := none
deriving DecidableEq, Repr

namespace Fault

/-- Whether the fault decides a call on the addresses from `start` up to, not including, `stop`. -/
def Decides (fault : Fault) (kind : CallKind) (start stop : Nat) : Prop :=
  fault.kind = kind ∧ fault.remaining ≠ some 0 ∧
    fault.start < stop ∧ start < fault.start + fault.length

instance (fault : Fault) (kind : CallKind) (start stop : Nat) :
    Decidable (fault.Decides kind start stop) :=
  inferInstanceAs (Decidable (_ ∧ _))

/-- The fault after it has decided a call. -/
def spend (fault : Fault) : Fault := { fault with remaining := fault.remaining.map (· - 1) }

/-- What the first fault that decides a call does to it, and the faults afterwards. -/
def decide? (kind : CallKind) (start stop : Nat) : List Fault → Option FaultEffect × List Fault
  | [] => (none, [])
  | fault :: faults =>
    if fault.Decides kind start stop then
      (some fault.effect, fault.spend :: faults)
    else
      let (effect, faults) := decide? kind start stop faults
      (effect, fault :: faults)

end Fault

/-- Flash content in memory, with the faults that lie in wait. -/
structure FlashMemory where
  /-- The address of the first byte. -/
  base : Nat := 0
  bytes : Array UInt8
  /-- The faults, first added first. -/
  faults : List Fault := []
deriving DecidableEq

namespace FlashMemory

def erased (base size : Nat) : FlashMemory := { base, bytes := Array.replicate size 0xff }

/-- The byte at an address. Outside the chip there is nothing but `0xff`. -/
def byteAt (m : FlashMemory) (address : Nat) : UInt8 :=
  if m.base ≤ address then m.bytes.getD (address - m.base) 0xff else 0xff

def peek (m : FlashMemory) (address length : Nat) : Bytes :=
  (List.range length).map fun i => m.byteAt (address + i)

/-- The memory with each byte from an address on replaced by what `change` makes of it and of the
byte given for it. -/
def changeWith (change : UInt8 → UInt8 → UInt8) (m : FlashMemory) (address : Nat) :
    Bytes → FlashMemory
  | [] => m
  | b :: bs =>
    let ⟨base, bytes, faults⟩ := m
    changeWith change ⟨base, bytes.modify (address - base) fun old => change old b, faults⟩
      (address + 1) bs

/-- The memory with bytes put in place from an address on, whatever was there. -/
def poke (m : FlashMemory) (address : Nat) (bytes : Bytes) : FlashMemory :=
  m.changeWith (fun _ new => new) address bytes

/-- Why a call in units of `unit` bytes cannot be made on a range, if it cannot. -/
def refusal? (m : FlashMemory) (unit start stop : Nat) : Option FlashError :=
  if start % unit ≠ 0 ∨ (stop - start) % unit ≠ 0 then some .notAligned
  else if m.base ≤ start ∧ start ≤ stop ∧ stop ≤ m.base + m.bytes.size then none
  else some .outOfBounds

/-- Makes a call: checks the range, lets the first fault that applies decide, and else has the
effect `carryOut`. -/
def attempt {α : Type} (kind : CallKind) (unit start stop : Nat) (ignored : α)
    (carryOut : EStateM FlashError FlashMemory α) : EStateM FlashError FlashMemory α := fun m =>
  match m.refusal? unit start stop with
  | some error => .error error m
  | none =>
    match Fault.decide? kind start stop m.faults with
    | (none, _) => carryOut m
    | (some .ignore, faults) => .ok ignored { m with faults }
    | (some (.fail error), faults) => .error error { m with faults }

/-- The chip on this memory, which erases units of the given size, programs words of four bytes and
reads single bytes. -/
def chip (eraseSize : Nat) : NorFlash FlashMemory where
  eraseSize := eraseSize
  read address length :=
    attempt .read 1 address.toNat (address.toNat + length) (Vector.replicate length 0xff) fun m =>
      .ok (Vector.ofFn fun i => m.byteAt (address.toNat + i.val)) m
  erase start stop :=
    attempt .erase eraseSize start.toNat stop.toNat () fun m =>
      .ok () (m.poke start.toNat (List.replicate (stop.toNat - start.toNat) 0xff))
  write address bytes :=
    attempt .write 4 address.toNat (address.toNat + bytes.length) () fun m =>
      .ok () (m.changeWith (· &&& ·) address.toNat bytes)

/-! ### Dump -/

/-- The rows of sixteen bytes from the start of the memory on, with their addresses; the last row
may be shorter. -/
def rows (m : FlashMemory) : List (Nat × Bytes) :=
  (List.range ((m.bytes.size + 15) / 16)).map fun i =>
    (m.base + 16 * i, (m.bytes.extract (16 * i) (16 * i + 16)).toList)

/-- Joins a row to the run that follows it, if it ends where that run begins. -/
def joinRow (row : Nat × Bytes) : List (Nat × Bytes) → List (Nat × Bytes)
  | [] => [row]
  | run :: runs =>
    if row.1 + row.2.length = run.1 then (row.1, row.2 ++ run.2) :: runs else row :: run :: runs

/-- The content that is not erased: runs of rows, with their addresses. -/
def dump (m : FlashMemory) : List (Nat × Bytes) :=
  (m.rows.filter fun row => row.2.any (· ≠ 0xff)).foldr joinRow []

end FlashMemory

end FirmwareUpdate
