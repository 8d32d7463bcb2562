import FirmwareUpdate.Engine.Basic
import FirmwareUpdate.Wire.PayloadPacket

/-!
# Transfers

A transfer covers whole cipher blocks of the application region. Its payload is taken in the order
of addresses: a packet ahead of the cursor is answered with the address to resume at, a resent
packet is taken again as long as its ciphertext is still buffered, and dropped otherwise.
-/

namespace FirmwareUpdate.Engine

variable {page : Nat} {σ : Type}

/-- Accepts a transfer of `length` bytes to an address. -/
def beginTransfer (config : Config) (chip : NorFlash σ) (now : UInt64) (address length : UInt32) :
    Step page σ Unit := do
  requireIdle
  Attempt.refuseIf (length = 0) .emptyRange
  Attempt.refuseIf (¬config.Admits address length) (.outsideRegion address length)
  Attempt.refuseIf (address.toNat % Block.size ≠ 0 ∨ length.toNat % Block.size ≠ 0)
    (.unaligned address length)
  assemble (Assembly.seek config.key chip address)
  updateSession fun s => s.beginTransfer now address length

/-- Where a payload packet lies relative to the cursor. -/
inductive Placement where
  /-- Beyond the cursor: a packet before it was missed. -/
  | ahead
  /-- Before the cursor, and its ciphertext is buffered no more. -/
  | settled
  /-- At the cursor, or before it among the buffered ciphertext. -/
  | wanted
deriving DecidableEq, Repr

/-- Where a packet with the given address lies. -/
def placement (e : Engine page) (address : UInt32) : Placement :=
  if e.session.cursor < address then .ahead
  else if address = e.session.cursor then .wanted
  else
    match e.assembly.pendingFrom with
    | some start => if start ≤ address then .wanted else .settled
    | none => .settled

/-- The end of `length` bytes from an address on, if it is at most `limit`. -/
def stopWithin? (limit address length : UInt32) : Option UInt32 :=
  match Address.add? address length with
  | some stop => if stop ≤ limit then some stop else none
  | none => none

/-- Lays bytes into units from the cursor on, and moves the cursor past them. The first byte always
fits, since the buffered unit contains the cursor. -/
def copy (config : Config) (chip : NorFlash σ) : Bytes → Step page σ Unit
  | [] => pure ()
  | b :: bs => do
    let e ← current
    assemble (Assembly.seek config.key chip e.session.cursor)
    let taken ← assemble (Assembly.insert e.session.cursor (b :: bs))
    updateSession fun s => { s with cursor := s.cursor + UInt32.ofNat taken }
    copy config chip (bs.drop (taken - 1))
termination_by bytes => bytes.length
decreasing_by simp only [List.length_drop, List.length_cons]; omega

/-- Ends the transfer: the last unit goes to flash, and the figures are reported. -/
def complete (config : Config) (chip : NorFlash σ) (now : UInt64) (limit : UInt32) :
    Step page σ Unit := do
  assemble (Assembly.commit config.key chip)
  await .idle
  let e ← current
  report now (limit - e.session.transferBase)

/-- Takes a payload packet that is wanted, up to the end of the transfer at `limit`. One that would
run past it changes nothing; the end reported is then cut to 32 bits. -/
def takePayload (config : Config) (chip : NorFlash σ) (now : UInt64) (limit : UInt32)
    (packet : PayloadPacket) : Step page σ Unit := do
  let length := UInt32.ofNat packet.payload.length
  match stopWithin? limit packet.address length with
  | none => throw (.overrun (packet.address + length) limit)
  | some stop => do
    updateSession fun s =>
      { s with cursor := packet.address, bytesRead := s.bytesRead + length }
    copy config chip packet.payload
    if stop = limit then complete config chip now limit else pure ()

/-- Takes, drops or answers a data packet during a transfer that ends at `limit`. -/
def receivePayload (config : Config) (chip : NorFlash σ) (now : UInt64) (limit : UInt32)
    (bytes : Bytes) : Step page σ Unit := do
  let packet ← Attempt.ofPacket (PayloadPacket.decode bytes)
  let e ← current
  match e.placement packet.address with
  | .ahead => emit (.progress (.resync e.session.cursor))
  | .settled => pure ()
  | .wanted => takePayload config chip now limit packet

end FirmwareUpdate.Engine
