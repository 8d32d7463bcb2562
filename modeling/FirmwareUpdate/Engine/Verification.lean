import FirmwareUpdate.Boot.Confirmation
import FirmwareUpdate.Digest.Region
import FirmwareUpdate.Engine.Basic

/-!
# Verification

The peer names a range and then sends the digest it should have. Only while the last digest checked
was a match, and no transfer has begun since, can the image be confirmed.
-/

namespace FirmwareUpdate.Engine

variable {page : Nat} {σ : Type}

/-- Awaits the digest of a range. -/
def awaitDigest (address size : UInt32) : Step page σ Unit := do
  requireIdle
  Attempt.refuseIf (address = 0 ∨ size = 0) .emptyRange
  await (.digest address size)

/-- Compares the digest of a range with the one expected. -/
def checkDigest (chip : NorFlash σ) (address size : UInt32) (expected : Digest) :
    Step page σ Unit := do
  let actual ← Attempt.onBoard (Region.digest chip address size)
  if actual = expected then
    updateSession fun s => { s with digestFailed := false, verified := true }
  else do
    updateSession fun s => { s with digestFailed := true, verified := false }
    emit (.progress (.digestFailed address))
    throw (.digestMismatch address)

/-- Takes the digest awaited for a range. One that has not the length of a digest is not awaited
again. -/
def receiveDigest (chip : NorFlash σ) (address size : UInt32) (bytes : Bytes) :
    Step page σ Unit := do
  await .idle
  match Bytes.exactly? Sha256.digestSize bytes with
  | some expected => checkDigest chip address size expected
  | none => throw (.digestLength Sha256.digestSize bytes.length)

/-- Confirms the image. The buffered unit may be the one with its record, so it is given up. -/
def confirmImage (config : Config) (chip : NorFlash σ) : Step page σ Unit := do
  requireIdle
  let e ← current
  Attempt.refuseIf (e.session.digestFailed ∨ ¬e.session.verified) .unverified
  update fun e => { e with assembly := e.assembly.discard }
  let _ ← Attempt.onBoard (Confirmation.run chip config.appBase)

end FirmwareUpdate.Engine
