import FirmwareUpdate.Engine.Transfer
import FirmwareUpdate.Engine.Verification
import FirmwareUpdate.Wire.ControlPacket

/-!
# Receiving packets

Every packet is either accepted or rejected with an error. A fatal error stops the engine: from
then on it rejects everything and touches nothing.
-/

namespace FirmwareUpdate

/-- A packet with the channel it came on. -/
inductive Packet where
  | control (bytes : Bytes)
  /-- Payload, a chaining vector or a digest. -/
  | data (bytes : Bytes)
deriving DecidableEq, Repr

namespace Engine

variable {page : Nat} {σ : Type}

/-! ### Commands -/

/-- Begins a new session. The chaining vector stays, and so does a reset that was asked for. -/
def restart (config : Config) : Step page σ Unit := do
  update fun e => { e with session := {}, assembly := e.assembly.discard }
  emit (.connection config.connection)

/-- Awaits a chaining vector of the announced length. -/
def awaitVector (length : UInt16) : Step page σ Unit := do
  requireIdle
  Attempt.refuseIf (length.toNat ≠ Block.size) (.chainVectorLength Block.size length.toNat)
  await .chainVector

def execute (config : Config) (chip : NorFlash σ) (now : UInt64) (packet : ControlPacket) :
    Step page σ Unit :=
  match packet.command with
  | .restart => restart config
  | .data => beginTransfer config chip now packet.address packet.length.toUInt32
  | .vector => awaitVector packet.length
  | .digest => awaitDigest packet.address packet.length.toUInt32
  | .done => confirmImage config chip
  | .reset => update fun e => { e with resetRequested := true }
  | .ping => report now packet.length.toUInt32

/-! ### Data -/

/-- Takes the chaining vector awaited. One that is not a block is not awaited again. -/
def receiveVector (bytes : Bytes) : Step page σ Unit := do
  await .idle
  match Bytes.exactly? Block.size bytes with
  | some vector => update fun e => { e with assembly := { e.assembly with vector } }
  | none => throw (.chainVectorLength Block.size bytes.length)

/-- A chaining vector or a digest is awaited no more after a packet that is too long. -/
def dropExpected : Activity → Activity
  | .chainVector | .digest _ _ => .idle
  | activity => activity

/-- Takes a data packet for what is awaited. Its length is checked first. -/
def consume (config : Config) (chip : NorFlash σ) (now : UInt64) (bytes : Bytes) :
    Step page σ Unit := do
  let e ← current
  if config.maxPacket < bytes.length then do
    await (dropExpected e.session.activity)
    throw (.malformed (.tooLong config.maxPacket bytes.length))
  else
    match e.session.activity with
    | .idle => throw .noTransfer
    | .chainVector => receiveVector bytes
    | .digest address size => receiveDigest chip address size bytes
    | .transfer base length => receivePayload config chip now (base + length) bytes

/-! ### The latch -/

/-- Takes a step unless the engine is halted or does not fit the chip, and halts it if the step
fails fatally. -/
def latched (chip : NorFlash σ) (step : Step page σ Unit) : Step page σ Unit :=
  fun (e, board) =>
    if e.halted then
      .error .halted (e, board)
    else if chip.eraseSize ≠ page then
      .error (.eraseUnit page chip.eraseSize) ({ e with halted := true }, board)
    else
      match step (e, board) with
      | .ok _ s => .ok () s
      | .error err (e, board) => .error err ({ e with halted := e.halted || err.isFatal }, board)

def control (config : Config) (chip : NorFlash σ) (now : UInt64) (bytes : Bytes) :
    Step page σ Unit :=
  latched chip do
    let packet ← Attempt.ofPacket (ControlPacket.decode bytes)
    execute config chip now packet

def data (config : Config) (chip : NorFlash σ) (now : UInt64) (bytes : Bytes) :
    Step page σ Unit :=
  latched chip (consume config chip now bytes)

/-- Takes a packet that arrives when the clock shows `now`. -/
def receive (config : Config) (chip : NorFlash σ) (now : UInt64) : Packet → Step page σ Unit
  | .control bytes => control config chip now bytes
  | .data bytes => data config chip now bytes

end Engine

end FirmwareUpdate
