import FirmwareUpdate.Proofs.Board

/-!
# Committing and taking up units

One rule for each operation on the unit under assembly, and what the operations preserve. With
nothing pending, taking up a unit reads flash at most once and changes it never.
-/

namespace FirmwareUpdate

variable {page : Nat} {σ α : Type}

namespace Assembly

open Attempt

variable {key : Aes256.Key} {chip : NorFlash σ} {a : Assembly page} {board : Board σ}
variable {P : Board σ → Prop} {post : Unit → Assembly page × Board σ → Prop}
variable {refused : UpdateError → Assembly page × Board σ → Prop}

@[simp] theorem buffer_release (a : Assembly page) : a.release.buffer = none := rfl

@[simp] theorem pending_release (a : Assembly page) : a.release.pending = a.pending := rfl

@[simp] theorem vector_release (a : Assembly page) : a.release.vector = a.vector := rfl

@[simp] theorem buffer_settled (a : Assembly page) : a.settled.buffer = a.buffer := rfl

@[simp] theorem pending_settled (a : Assembly page) : a.settled.pending = none := rfl

@[simp] theorem vector_settled (a : Assembly page) : a.settled.vector = a.vector := rfl

@[simp] theorem base?_settled (a : Assembly page) : a.settled.base? = a.base? := rfl

@[simp] theorem buffer_lay (a : Assembly page) (u : UnitBuffer page) (address : UInt32)
    (bytes : Bytes) : (a.lay u address bytes).buffer = some (u.insert address bytes) := rfl

@[simp] theorem pending_lay (a : Assembly page) (u : UnitBuffer page) (address : UInt32)
    (bytes : Bytes) : (a.lay u address bytes).pending =
      some (Span.extend a.pending (u.spanAt address bytes.length)) := rfl

@[simp] theorem vector_lay (a : Assembly page) (u : UnitBuffer page) (address : UInt32)
    (bytes : Bytes) : (a.lay u address bytes).vector = a.vector := rfl

/-- A unit whose pending span was taken away and that is given up is forgotten. -/
@[simp] theorem release_settled (a : Assembly page) : a.settled.release = a.discard := rfl

/-- No ciphertext waits to be programmed. -/
def NothingPending (a : Assembly page) : Prop := a.pending = none

theorem nothingPending_settled (a : Assembly page) : a.settled.NothingPending := rfl

theorem nothingPending_discard (a : Assembly page) : a.discard.NothingPending := rfl

theorem NothingPending.eq_none (h : a.NothingPending) : a.pending = none := h

theorem NothingPending.settled_eq (h : a.NothingPending) : a.settled = a := by
  obtain ⟨buffer, pending, vector⟩ := a
  obtain rfl : pending = none := h
  rfl

theorem NothingPending.release_eq (h : a.NothingPending) : a.release = a.discard := by
  rw [← release_settled, h.settled_eq]

/-- Bytes are pending only in a buffered unit. -/
def Coherent (a : Assembly page) : Prop := ∀ s, a.pending = some s → ∃ u, a.buffer = some u

theorem NothingPending.coherent (h : a.NothingPending) : a.Coherent := by
  intro s hs
  simp [h.eq_none] at hs

theorem Coherent.nothingPending_or_pending (h : a.Coherent) :
    a.NothingPending ∨ ∃ u s, a.buffer = some u ∧ a.pending = some s := by
  cases hpending : a.pending with
  | none => exact Or.inl hpending
  | some s =>
      obtain ⟨u, hbuffer⟩ := h s hpending
      exact Or.inr ⟨u, s, hbuffer, rfl⟩

/-- A commit has nothing to program: no unit is buffered or nothing in it is pending. -/
def NothingToCommit (a : Assembly page) : Prop := a.buffer = none ∨ a.pending = none

theorem NothingPending.nothingToCommit (h : a.NothingPending) : a.NothingToCommit := Or.inr h

theorem nothingToCommit_or_pending (a : Assembly page) :
    a.NothingToCommit ∨ ∃ u s, a.buffer = some u ∧ a.pending = some s := by
  cases hbuffer : a.buffer with
  | none => exact Or.inl (Or.inl hbuffer)
  | some u =>
      cases hpending : a.pending with
      | none => exact Or.inl (Or.inr hpending)
      | some s => exact Or.inr ⟨u, s, rfl, rfl⟩

theorem pendingFrom_of_nothing (h : a.NothingPending) : a.pendingFrom = none := by
  simp [pendingFrom, h.eq_none]

theorem pendingFrom_of_pending {u : UnitBuffer page} {s : Span} (hbuffer : a.buffer = some u)
    (hs : a.pending = some s) :
    a.pendingFrom = some (u.base + UInt32.ofNat s.start) := by
  simp [pendingFrom, hbuffer, hs]

/-- There is a first pending byte only if a span of a buffered unit is pending. -/
theorem pendingFrom_eq_some {start : UInt32} (h : a.pendingFrom = some start) :
    ∃ u s, a.buffer = some u ∧ a.pending = some s ∧ u.base + UInt32.ofNat s.start = start := by
  unfold pendingFrom at h
  split at h
  · next u s hbuffer hs => exact ⟨u, s, hbuffer, hs, Option.some.inj h⟩
  · simp at h

@[simp] theorem yields_load {base : UInt32} :
    (load chip base).Yields (a, board) post refused ↔
      (Board.read chip base page).Yields board
        (fun bytes board => post () ({ a with buffer := some { base, bytes } }, board))
        (fun e board => refused e (a.release, board)) := by
  simp only [Yields, EStateM.run, load]
  cases Board.read chip base page board <;> rfl

@[simp] theorem yields_reprogram {u : UnitBuffer page} {stop : UInt32}
    {post : Unit → Board σ → Prop} {refused : UpdateError → Board σ → Prop} :
    (reprogram chip u stop).Yields board post refused ↔
      (Board.erase chip u.base stop).Yields board
        (fun _ board => (Board.write chip u.base u.bytes.toList).Yields board post refused)
        refused := by
  rw [reprogram, yields_bind]

theorem yields_program {u : UnitBuffer page} :
    (program chip u).Yields (a, board) post refused ↔
      match Address.add? u.base (UInt32.ofNat page) with
      | none => refused (.flash .outOfBounds) (a.release, board)
      | some stop =>
        (reprogram chip u stop).Yields board
          (fun _ board => post () ({ a with buffer := some u }, board))
          (fun e board => refused e (a.release, board)) := by
  simp only [Yields, EStateM.run, program]
  cases Address.add? u.base (UInt32.ofNat page) with
  | none => rfl
  | some stop => cases h : reprogram chip u stop board <;> simp only [h]

theorem yields_commit_pending {u : UnitBuffer page} {s : Span} (hbuffer : a.buffer = some u)
    (hpending : a.pending = some s) :
    (commit key chip).Yields (a, board) post refused ↔
      match Chain.decrypt? key a.vector (u.spanBytes s) with
      | none =>
        refused (.unaligned (u.base + UInt32.ofNat s.start) (UInt32.ofNat s.length))
          (a.discard, board)
      | some (plain, vector) =>
        (program chip (u.settle s plain)).Yields ({ a.settled with vector }, board) post refused := by
  simp only [Yields, EStateM.run, commit, hbuffer, hpending]
  cases Chain.decrypt? key a.vector (u.spanBytes s) <;> rfl

theorem yields_commit_nothing (h : a.NothingToCommit) :
    (commit key chip).Yields (a, board) post refused ↔ post () (a.settled, board) := by
  simp only [Yields, EStateM.run, commit]
  rcases h with h | h
  · rw [h]
  · rw [h]
    cases a.buffer <;> rfl

theorem yields_commit_nothingPending (h : a.NothingPending) :
    (commit key chip).Yields (a, board) post refused ↔ post () (a, board) := by
  rw [yields_commit_nothing h.nothingToCommit, h.settled_eq]

theorem yields_seek {address : UInt32} :
    (seek key chip address).Yields (a, board) post refused ↔
      (a.base? = some (Address.unitBase page address) → post () (a, board)) ∧
        (a.base? ≠ some (Address.unitBase page address) →
          (commit key chip).Yields (a, board)
            (fun _ st => (load chip (Address.unitBase page address)).Yields st post refused)
            refused) := by
  simp only [seek, yields_bind, yields_ite, yields_pure]
  rfl

theorem yields_seek_nothing (h : a.NothingPending) {address : UInt32} :
    (seek key chip address).Yields (a, board) post refused ↔
      (a.base? = some (Address.unitBase page address) → post () (a, board)) ∧
        (a.base? ≠ some (Address.unitBase page address) →
          (load chip (Address.unitBase page address)).Yields (a, board) post refused) := by
  rw [yields_seek, yields_commit_nothingPending h]

theorem yields_insert {address : UInt32} {bytes : Bytes}
    {post : Nat → Assembly page × Board σ → Prop}
    (hfits : ∀ u, a.buffer = some u → u.Contains address →
      post (u.room address bytes.length) (a.lay u address bytes, board))
    (houtside : refused .noTransfer (a, board)) :
    (insert address bytes : Attempt (Assembly page × Board σ) Nat).Yields (a, board) post
      refused := by
  simp only [Yields, EStateM.run, insert]
  cases h : a.buffer with
  | none => exact houtside
  | some u =>
      by_cases hcontains : u.Contains address
      · simp only [hcontains, if_true]
        exact hfits u h hcontains
      · simp only [hcontains, if_false]
        exact houtside

theorem yields_insert_of_contains {address : UInt32} {bytes : Bytes} {u : UnitBuffer page}
    (hbuffer : a.buffer = some u) (hcontains : u.Contains address)
    {post : Nat → Assembly page × Board σ → Prop} :
    (insert address bytes : Attempt (Assembly page × Board σ) Nat).Yields (a, board) post refused ↔
      post (u.room address bytes.length) (a.lay u address bytes, board) := by
  simp only [Yields, EStateM.run, insert, hbuffer, hcontains, if_true]

/-! ### What the operations preserve -/

/-- Once a span is committed, or is lost because that failed, nothing is pending. -/
theorem commit_nothingPending :
    (commit key chip).Yields (a, board) (fun _ st => st.1.NothingPending)
      (fun _ st => st.1.NothingPending) := by
  obtain h | ⟨u, s, hbuffer, hs⟩ := a.nothingToCommit_or_pending
  · exact (yields_commit_nothing h).mpr a.nothingPending_settled
  · rw [yields_commit_pending hbuffer hs]
    split
    · exact nothingPending_discard a
    · rw [yields_program]
      split
      · exact nothingPending_discard _
      · exact yields_of_forall (fun _ _ => rfl) fun _ _ => rfl

theorem load_nothingPending (h : a.NothingPending) {base : UInt32} :
    (load chip base).Yields (a, board) (fun _ st => st.1.NothingPending)
      (fun _ st => st.1.NothingPending) := by
  rw [yields_load]
  exact yields_of_forall (fun _ _ => h) fun _ _ => h

theorem seek_nothingPending (h : a.NothingPending) {address : UInt32} :
    (seek key chip address).Yields (a, board) (fun _ st => st.1.NothingPending)
      (fun _ st => st.1.NothingPending) :=
  (yields_seek_nothing h).mpr ⟨fun _ => h, fun _ => load_nothingPending h⟩

theorem load_keeps (hread : ∀ address length, (Board.read chip address length).Keeps P)
    {base : UInt32} :
    (load chip base : Attempt (Assembly page × Board σ) Unit).Keeps fun st => P st.2 := by
  intro st hst
  exact yields_load.mpr (hread base page st.2 hst)

theorem program_keeps (herase : ∀ start stop, (Board.erase chip start stop).Keeps P)
    (hwrite : ∀ address bytes, (Board.write chip address bytes).Keeps P) {u : UnitBuffer page} :
    (program chip u).Keeps fun st => P st.2 := by
  intro st hst
  rw [yields_program]
  split
  · exact hst
  · rw [yields_reprogram]
    exact (herase _ _ st.2 hst).mono (fun _ _ hP => hwrite _ _ _ hP) fun _ _ hP => hP

theorem commit_keeps (herase : ∀ start stop, (Board.erase chip start stop).Keeps P)
    (hwrite : ∀ address bytes, (Board.write chip address bytes).Keeps P) :
    (commit key chip : Attempt (Assembly page × Board σ) Unit).Keeps fun st => P st.2 := by
  rintro ⟨a, board⟩ hst
  obtain hnothing | ⟨u, s, hbuffer, hs⟩ := a.nothingToCommit_or_pending
  · exact (yields_commit_nothing hnothing).mpr hst
  · rw [yields_commit_pending hbuffer hs]
    split
    · exact hst
    · exact program_keeps herase hwrite _ hst

theorem seek_keeps (hread : ∀ address length, (Board.read chip address length).Keeps P)
    (herase : ∀ start stop, (Board.erase chip start stop).Keeps P)
    (hwrite : ∀ address bytes, (Board.write chip address bytes).Keeps P) {address : UInt32} :
    (seek key chip address : Attempt (Assembly page × Board σ) Unit).Keeps fun st => P st.2 := by
  rintro ⟨a, board⟩ hst
  rw [yields_seek]
  refine ⟨fun _ => hst, fun _ => ?_⟩
  exact (commit_keeps herase hwrite _ hst).mono
    (fun _ _ hP => load_keeps hread _ hP) fun _ _ hP => hP

theorem insert_keeps {address : UInt32} {bytes : Bytes} :
    (insert address bytes : Attempt (Assembly page × Board σ) Nat).Keeps fun st => P st.2 :=
  fun _ hst => yields_insert (fun _ _ _ => hst) hst

end Assembly

end FirmwareUpdate
