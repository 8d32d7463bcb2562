import FirmwareUpdate.Address
import FirmwareUpdate.Bytes.Fixed

/-!
# The unit buffer

A copy of one erase unit of flash, into which received bytes are laid before the unit is erased and
programmed as a whole. A span covers every byte received; the other bytes are those that flash held
when the unit was read.
-/

namespace FirmwareUpdate

/-- The positions from `start` up to, not including, `stop`. -/
structure Span where
  start : Nat
  stop : Nat
deriving DecidableEq, Repr

namespace Span

def length (s : Span) : Nat := s.stop - s.start

/-- The least span that covers both. -/
def hull (s t : Span) : Span := ⟨min s.start t.start, max s.stop t.stop⟩

/-- The least span that covers another and, if there is one, what was covered before. -/
def extend (before : Option Span) (s : Span) : Span :=
  match before with
  | some t => t.hull s
  | none => s

end Span

/-- An erase unit of `page` bytes. -/
structure UnitBuffer (page : Nat) where
  base : UInt32
  bytes : Vector UInt8 page
deriving DecidableEq

namespace UnitBuffer

variable {page : Nat}

def spanBytes (u : UnitBuffer page) (s : Span) : Bytes := Bytes.slice u.bytes s.start s.stop

def Contains (u : UnitBuffer page) (address : UInt32) : Prop :=
  u.base ≤ address ∧ (address - u.base).toNat < page

instance (u : UnitBuffer page) (address : UInt32) : Decidable (u.Contains address) :=
  inferInstanceAs (Decidable (_ ∧ _))

/-- How many of `count` bytes fit into the unit from an address in it on. -/
def room (u : UnitBuffer page) (address : UInt32) (count : Nat) : Nat :=
  min count (page - (address - u.base).toNat)

/-- Where those bytes go. -/
def spanAt (u : UnitBuffer page) (address : UInt32) (count : Nat) : Span :=
  let offset := (address - u.base).toNat
  ⟨offset, offset + u.room address count⟩

/-- The unit with as many bytes as fit laid over it from an address in it on. -/
def insert (u : UnitBuffer page) (address : UInt32) (bytes : Bytes) : UnitBuffer page :=
  { u with
    bytes := Bytes.overlay u.bytes (address - u.base).toNat
      (bytes.take (u.room address bytes.length)) }

/-- The unit with the bytes of a span replaced by others. -/
def settle (u : UnitBuffer page) (s : Span) (bytes : Bytes) : UnitBuffer page :=
  { u with bytes := Bytes.overlay u.bytes s.start bytes }

end UnitBuffer

end FirmwareUpdate
