import FirmwareUpdate.Proofs.Position

/-!
# Steps that stay in range

Sums and differences of words wrap, and slices are cut to the bytes there are. A checked step computes the
same as an attempt, but ends without a result where a sum or a difference is not a word, or an index is out
of range. That it agrees with the attempt says that this happens nowhere.
-/

namespace FirmwareUpdate

variable {page : Nat} {s σ α β : Type}

/-! ### Arithmetic without wrapping -/

namespace Address

/-- The difference of two words, if it is a word. -/
def sub? (a b : UInt32) : Option UInt32 := if b ≤ a then some (a - b) else none

/-- A number as a word, if it is one. -/
def word? (n : Nat) : Option UInt32 := if n < UInt32.size then some (UInt32.ofNat n) else none

/-- The address that is `n` bytes further on. -/
def advance? (a : UInt32) (n : Nat) : Option UInt32 := (word? n).bind (add? a)

def unitBase? (page : Nat) (address : UInt32) : Option UInt32 := do
  let size ← word? page
  if size = 0 then none else sub? address (address % size)

theorem sub?_of_le {a b : UInt32} (h : b.toNat ≤ a.toNat) : sub? a b = some (a - b) :=
  if_pos (UInt32.le_iff_toNat_le.mpr h)

theorem word?_of_lt {n : Nat} (h : n < UInt32.size) : word? n = some (UInt32.ofNat n) := if_pos h

theorem advance?_of_lt {a : UInt32} {n : Nat} (h : a.toNat + n < UInt32.size) :
    advance? a n = some (a + UInt32.ofNat n) := by
  rw [advance?, word?_of_lt (by omega), Option.bind_some, add?, if_pos]
  rwa [UInt32.toNat_ofNat_of_lt' (by omega)]

theorem unitBase?_eq (hpos : 0 < page) (hfits : page < UInt32.size) (address : UInt32) :
    unitBase? page address = some (unitBase page address) := by
  have hsize : UInt32.ofNat page ≠ 0 := by
    intro hzero
    have hpage := congrArg UInt32.toNat hzero
    rw [UInt32.toNat_ofNat_of_lt' hfits] at hpage
    exact Nat.ne_of_gt hpos hpage
  rw [unitBase?, word?_of_lt hfits]
  simp only [Option.bind_eq_bind, Option.bind_some, hsize, if_false]
  refine sub?_of_le ?_
  rw [UInt32.toNat_mod]
  exact Nat.mod_le _ _

end Address

/-! ### Checked steps -/

/-- An attempt that may also end without a result. -/
def Checked (s α : Type) : Type := s → Option (EStateM.Result UpdateError s α)

namespace Checked

instance : Monad (Checked s) where
  pure a := fun state => some (.ok a state)
  bind checked next := fun state =>
    match checked state with
    | some (.ok a state) => next a state
    | some (.error e state) => some (.error e state)
    | none => none

/-- An attempt in which there is nothing to check. -/
def ofAttempt (attempt : Attempt s α) : Checked s α := fun state => some (attempt.run state)

/-- Goes on with a value that is in range. -/
def within (value : Option α) : Checked s α := fun state => value.map fun a => .ok a state

/-- Goes on if an index is in range. -/
def require (condition : Prop) [Decidable condition] : Checked s Unit :=
  fun state => if condition then some (.ok () state) else none

/-- In this state the checked step has a result, and it is the one of the attempt. -/
def Agrees (checked : Checked s α) (attempt : Attempt s α) (state : s) : Prop :=
  checked state = some (attempt.run state)

variable {checked : Checked s α} {attempt : Attempt s α} {state : s}
variable {checkedNext : α → Checked s β} {next : α → Attempt s β}

theorem agrees_ofAttempt : (ofAttempt attempt).Agrees attempt state := rfl

theorem agrees_pure {a : α} : (pure a : Checked s α).Agrees (pure a) state := rfl

theorem Agrees.bind (h : checked.Agrees attempt state)
    (hnext : attempt.Yields state (fun a st => (checkedNext a).Agrees (next a) st) fun _ _ => True) :
    (checked >>= checkedNext).Agrees (attempt >>= next) state := by
  unfold Attempt.Yields at hnext
  simp only [Agrees, Bind.bind, EStateM.bind, EStateM.run] at h hnext ⊢
  rw [h]
  split at hnext <;> simp_all

theorem agrees_within {value : Option α} {a : α} {attempt : Attempt s β} (hvalue : value = some a)
    (h : (checkedNext a).Agrees attempt state) :
    (within value >>= checkedNext).Agrees attempt state := by
  rw [hvalue]
  exact h

theorem agrees_require {condition : Prop} [Decidable condition] {checkedNext : Unit → Checked s β}
    {attempt : Attempt s β} (hcondition : condition) (h : (checkedNext ()).Agrees attempt state) :
    (require condition >>= checkedNext).Agrees attempt state := by
  simp only [Agrees, Bind.bind, require, hcondition, if_true]
  exact h

theorem agrees_get {checkedNext : s → Checked s β} {attempt : Attempt s β}
    (h : (checkedNext state).Agrees attempt state) :
    (ofAttempt get >>= checkedNext).Agrees attempt state := h

theorem agrees_ofPacket {result : Except PacketError α}
    (h : ∀ a, result = .ok a → (checkedNext a).Agrees (next a) state) :
    (ofAttempt (Attempt.ofPacket result) >>= checkedNext).Agrees (Attempt.ofPacket result >>= next)
      state := by
  cases result with
  | error e => rfl
  | ok a => exact agrees_ofAttempt.bind (Attempt.yields_ofPacket_ok.mpr (h a rfl))

theorem agrees_ite {condition : Prop} [Decidable condition] {checked checked' : Checked s α}
    {attempt attempt' : Attempt s α} (h : condition → checked.Agrees attempt state)
    (h' : ¬condition → checked'.Agrees attempt' state) :
    (if condition then checked else checked').Agrees (if condition then attempt else attempt')
      state := by
  by_cases hcondition : condition
  · rw [if_pos hcondition, if_pos hcondition]
    exact h hcondition
  · rw [if_neg hcondition, if_neg hcondition]
    exact h' hcondition

end Checked

/-! ### The unit under assembly -/

def Assembly.pendingFrom? (a : Assembly page) : Option (Option UInt32) :=
  match a.buffer, a.pending with
  | some u, some s => (Address.advance? u.base s.start).map some
  | _, _ => some none

namespace Checked

variable {chip : NorFlash σ} {key : Aes256.Key}

/-- Commits what is pending. It is a slice of the buffered unit, whose last block is the vector for what
follows. -/
def commit (key : Aes256.Key) (chip : NorFlash σ) : Checked (Assembly page × Board σ) Unit := do
  let (a, _) ← ofAttempt get
  match a.buffer, a.pending with
  | some u, some s => do
    require (s.start ≤ s.stop ∧ s.stop ≤ page)
    if s.length = 0 ∨ s.length % Block.size ≠ 0 then do
      let _ ← within (Address.advance? u.base s.start)
      let _ ← within (Address.word? s.length)
      ofAttempt (Assembly.commit key chip)
    else do
      require (Block.size ≤ s.length)
      let _ ← within (Address.word? page)
      ofAttempt (Assembly.commit key chip)
  | _, _ => ofAttempt (Assembly.commit key chip)

def seek (key : Aes256.Key) (chip : NorFlash σ) (address : UInt32) :
    Checked (Assembly page × Board σ) Unit := do
  let base ← within (Address.unitBase? page address)
  let (a, _) ← ofAttempt get
  if a.base? = some base then
    pure ()
  else do
    commit key chip
    ofAttempt (Assembly.load chip base)

/-- Lays bytes into a slice of the buffered unit. -/
def insert (address : UInt32) (bytes : Bytes) : Checked (Assembly page × Board σ) Nat := do
  let (a, _) ← ofAttempt get
  match a.buffer with
  | none => ofAttempt (throw .noTransfer)
  | some u =>
    if u.base ≤ address then do
      let offset ← within (Address.sub? address u.base)
      if offset.toNat < page then do
        let count := min bytes.length (page - offset.toNat)
        require (offset.toNat + count ≤ page ∧ count ≤ bytes.length)
        ofAttempt (Assembly.insert address bytes)
      else
        ofAttempt (throw .noTransfer)
    else
      ofAttempt (throw .noTransfer)

end Checked

namespace Assembly

variable {a : Assembly page} {base limit cursor : Nat}

/-- What is pending is not empty, and lies in the buffered unit and in the address space. -/
def PendsInRange (a : Assembly page) : Prop :=
  ∀ u s, a.buffer = some u → a.pending = some s →
    s.start < s.stop ∧ s.stop ≤ page ∧ u.base.toNat + s.stop < UInt32.size

theorem NothingPending.pendsInRange (h : a.NothingPending) : a.PendsInRange := by
  intro u s hbuffer hs
  simp [h.eq_none] at hs

theorem Positioned.pendsInRange (h : a.Positioned base limit cursor) (hlimit : limit < UInt32.size) :
    a.PendsInRange := by
  intro u s hbuffer hs
  have hspans := h.pending u s hbuffer hs
  exact ⟨hspans.nonempty, hspans.stop_le_page, Nat.lt_of_le_of_lt hspans.stop_le hlimit⟩

theorem pendingFrom?_eq (h : a.PendsInRange) : a.pendingFrom? = some a.pendingFrom := by
  unfold pendingFrom? pendingFrom
  cases hbuffer : a.buffer with
  | none => rfl
  | some u =>
      cases hs : a.pending with
      | none => rfl
      | some s =>
          obtain ⟨hnonempty, -, hspace⟩ := h u s hbuffer hs
          simp [Address.advance?_of_lt (a := u.base) (n := s.start) (by omega)]

end Assembly

namespace Checked

variable {chip : NorFlash σ} {key : Aes256.Key} {a : Assembly page} {board : Board σ}

theorem commit_agrees (hfits : page < UInt32.size) (h : a.PendsInRange) :
    (commit key chip).Agrees (Assembly.commit key chip) (a, board) := by
  refine agrees_get ?_
  obtain ⟨_ | ⟨base, bytes⟩, _ | s, vector⟩ := a
  · rfl
  · rfl
  · rfl
  · obtain ⟨hnonempty, hpage, hspace⟩ := h _ s rfl rfl
    have hlength : s.length ≤ s.stop := Nat.sub_le _ _
    refine agrees_require ⟨Nat.le_of_lt hnonempty, hpage⟩ ?_
    split
    · exact agrees_within (Address.advance?_of_lt (by omega))
        (agrees_within (Address.word?_of_lt (by omega)) agrees_ofAttempt)
    · next hwhole =>
        have hblock : Block.size ≤ s.length := by
          simp only [Block.size] at hwhole ⊢
          omega
        exact agrees_require hblock (agrees_within (Address.word?_of_lt hfits) agrees_ofAttempt)

theorem seek_agrees (hpos : 0 < page) (hfits : page < UInt32.size) (h : a.PendsInRange)
    {address : UInt32} :
    (seek key chip address).Agrees (Assembly.seek key chip address) (a, board) := by
  refine agrees_within (Address.unitBase?_eq hpos hfits address) (agrees_ofAttempt.bind ?_)
  refine agrees_ite (fun _ => agrees_pure) fun _ => ?_
  exact (commit_agrees hfits h).bind (Attempt.yields_of_forall (fun _ _ => agrees_ofAttempt)
    fun _ _ => trivial)

theorem insert_agrees {address : UInt32} {bytes : Bytes} :
    (insert address bytes).Agrees (Assembly.insert address bytes) (a, board) := by
  refine agrees_get ?_
  obtain ⟨_ | u, pending, vector⟩ := a
  · rfl
  · have houtside (hout : ¬u.Contains address) :
        (ofAttempt (throw .noTransfer) : Checked (Assembly page × Board σ) Nat).Agrees
          (Assembly.insert address bytes) (⟨some u, pending, vector⟩, board) := by
      simp only [Agrees, EStateM.run, Assembly.insert, if_neg hout]
      rfl
    dsimp only
    split
    · next hle =>
        refine agrees_within (Address.sub?_of_le (UInt32.le_iff_toNat_le.mp hle)) ?_
        split
        · next hlt => exact agrees_require (by omega) agrees_ofAttempt
        · next hlt => exact houtside fun hcontains => hlt hcontains.2
    · next hle => exact houtside fun hcontains => hle hcontains.1

/-! ### The digest of a range -/

/-- Hashes flash by way of a buffer of 64 bytes. -/
def hashFrom (chip : NorFlash σ) (hasher : Sha256.Hasher) (address : UInt32) (remaining : Nat) :
    Checked (Board σ) Sha256.Hasher :=
  if remaining = 0 then
    pure hasher
  else do
    let length := min Region.pieceSize remaining
    require (length ≤ Region.pieceSize)
    let piece ← ofAttempt (Board.read chip address length)
    let next ← within (Address.advance? address length)
    hashFrom chip (hasher.update piece.toList) next (remaining - length)
termination_by remaining
decreasing_by simp only [Region.pieceSize]; omega

def digest (chip : NorFlash σ) (address size : UInt32) : Checked (Board σ) Digest :=
  match Address.add? address size with
  | none => ofAttempt (throw (.flash .outOfBounds))
  | some _ => do
    let hasher ← hashFrom chip {} address size.toNat
    pure hasher.finish

theorem hashFrom_agrees (hasher : Sha256.Hasher) (address : UInt32) (remaining : Nat)
    (h : address.toNat + remaining < UInt32.size) :
    (hashFrom chip hasher address remaining).Agrees (Region.hashFrom chip hasher address remaining)
      board := by
  induction remaining using Nat.strongRecOn generalizing hasher address board with
  | ind remaining ih =>
      rw [hashFrom, Region.hashFrom]
      refine agrees_ite (fun _ => agrees_pure) fun hne => ?_
      have hpiece : 0 < min Region.pieceSize remaining ∧ min Region.pieceSize remaining ≤ remaining := by
        simp only [Region.pieceSize]
        omega
      refine agrees_require (Nat.min_le_left _ _) (agrees_ofAttempt.bind
        (Attempt.yields_of_forall (fun piece board' => ?_) fun _ _ => trivial))
      have hnext : (address + UInt32.ofNat (min Region.pieceSize remaining)).toNat =
          address.toNat + min Region.pieceSize remaining := Address.toNat_add_ofNat (by omega)
      exact agrees_within (Address.advance?_of_lt (by omega)) (ih _ (by omega) _ _ (by omega))

theorem digest_agrees (address size : UInt32) :
    (digest chip address size).Agrees (Region.digest chip address size) board := by
  unfold digest Region.digest
  cases hstop : Address.add? address size with
  | none => exact agrees_ofAttempt
  | some stop =>
      have hsum := Address.add?_eq_some_iff.mp hstop
      exact (hashFrom_agrees _ _ _ (hsum ▸ stop.toNat_lt)).bind
        (Attempt.yields_of_forall (fun _ _ => agrees_pure) fun _ _ => trivial)

end Checked

end FirmwareUpdate
