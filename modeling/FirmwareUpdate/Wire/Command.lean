/-!
# Commands

The seven commands of the control channel and their codes on the wire.
-/

namespace FirmwareUpdate

/-- A command carried by a control packet. -/
inductive Command where
  /-- Clears the session and asks for new connection parameters. -/
  | restart
  /-- Announces ciphertext for a range of addresses on the data channel. -/
  | data
  /-- Announces a chaining vector on the data channel. -/
  | vector
  /-- Confirms the image, provided it was verified. -/
  | done
  /-- Restarts the device once the connection closes. -/
  | reset
  /-- Announces the expected digest of a range of addresses. -/
  | digest
  /-- Asks for a progress report. -/
  | ping
deriving DecidableEq, Repr

namespace Command

/-- The number that stands for the command in a packet. -/
def code : Command → UInt16
  | restart => 1
  | data => 2
  | vector => 3
  | done => 4
  | reset => 5
  | digest => 6
  | ping => 7

def ofCode? : UInt16 → Option Command
  | 1 => some restart
  | 2 => some data
  | 3 => some vector
  | 4 => some done
  | 5 => some reset
  | 6 => some digest
  | 7 => some ping
  | _ => none

@[simp] theorem ofCode?_code (c : Command) : ofCode? c.code = some c := by
  cases c <;> rfl

theorem ofCode?_eq_some_iff {w : UInt16} {c : Command} : ofCode? w = some c ↔ w = c.code := by
  constructor
  · intro h
    unfold ofCode? at h
    split at h <;> first | contradiction | (cases h; rfl)
  · rintro rfl
    exact ofCode?_code c

end Command

end FirmwareUpdate
