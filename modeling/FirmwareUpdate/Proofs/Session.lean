import FirmwareUpdate.Session

/-!
# The verdict of the digest checks

The two flags that a session keeps about digest checks, taken together. Nothing in the session rules
out that both are set; that no run of packets sets both is proved with the history of the checks.
-/

namespace FirmwareUpdate

/-- What the flags about the digest checks say. -/
structure Verdict where
  digestFailed : Bool
  verified : Bool
deriving DecidableEq, Repr

namespace Verdict

/-- No digest was checked since the last transfer began or the session started. -/
def unchecked : Verdict := ⟨false, false⟩

/-- The last digest checked matched. -/
def matched : Verdict := ⟨false, true⟩

/-- The last digest checked did not match; a new transfer does not change that. -/
def failed : Verdict := ⟨true, false⟩

@[simp] theorem unchecked_ne_matched : unchecked ≠ matched := by decide

/-- The verdict once a new transfer has begun: a match no longer counts, a failure still does. -/
def afterTransfer (verdict : Verdict) : Verdict := { verdict with verified := false }

/-- The flags are not both set. -/
def Exclusive (verdict : Verdict) : Prop := ¬(verdict.digestFailed ∧ verdict.verified)

theorem exclusive_unchecked : unchecked.Exclusive := by simp [Exclusive, unchecked]

end Verdict

namespace Session

def verdict (s : Session) : Verdict := ⟨s.digestFailed, s.verified⟩

/-- The image may be confirmed exactly in a session with a match for its verdict. -/
theorem verdict_eq_matched_iff {s : Session} :
    s.verdict = .matched ↔ ¬(s.digestFailed ∨ ¬s.verified) := by
  simp [verdict, Verdict.matched]

@[simp] theorem verdict_fresh : ({} : Session).verdict = .unchecked := rfl

@[simp] theorem verdict_beginTransfer (s : Session) (now : UInt64) (address length : UInt32) :
    (s.beginTransfer now address length).verdict = s.verdict.afterTransfer := rfl

end Session

end FirmwareUpdate
