import FirmwareUpdate.Proofs.Engine.Reception

/-!
# When ciphertext can be pending

Ciphertext waits in the buffer only during a transfer. Every packet preserves this, so a new transfer
never commits what an earlier one left behind, and all packets but `done` and the payload of a
transfer only read flash.
-/

namespace FirmwareUpdate

namespace Engine

open Attempt

variable {page : Nat} {σ : Type} {config : Config} {chip : NorFlash σ} {now : UInt64}
variable {e : Engine page} {board : Board σ}

/-- Ciphertext is pending only during a transfer, and a match counts only outside one. -/
structure Consistent (e : Engine page) : Prop where
  nothingPending : (∀ base length, e.session.activity ≠ .transfer base length) →
    e.assembly.NothingPending
  unverified : ∀ {base length}, e.session.activity = .transfer base length →
    e.session.verified = false

theorem consistent_fresh : ({} : Engine page).Consistent where
  nothingPending _ := rfl
  unverified h := by simp at h

theorem Consistent.unmatched (h : e.Consistent) {base length : UInt32}
    (hactivity : e.session.activity = .transfer base length) : e.session.verdict ≠ .matched := by
  intro hmatched
  have hverified := h.unverified hactivity
  simp [Session.verdict_eq_matched_iff, hverified] at hmatched

theorem Consistent.haltedBy (h : e.Consistent) (error : UpdateError) :
    (e.haltedBy error).Consistent :=
  ⟨h.nothingPending, h.unverified⟩

theorem consistent_of_nothingPending (h : e.assembly.NothingPending)
    (hactivity : ∀ base length, e.session.activity ≠ .transfer base length) : e.Consistent :=
  ⟨fun _ => h, fun htransfer => absurd htransfer (hactivity _ _)⟩

theorem execute_consistent (h : e.Consistent) {packet : ControlPacket} :
    (execute config chip now packet).Yields (e, board) (fun _ st => st.1.Consistent)
      fun _ st => st.1.Consistent := by
  have hrest (hidle : e.session.activity = .idle) : e.assembly.NothingPending :=
    h.nothingPending (by simp [hidle])
  apply yields_execute (fun _ _ => h)
  cases packet.command with
  | restart => exact consistent_of_nothingPending (Assembly.nothingPending_discard _) (by simp)
  | data =>
      intro hidle _ _ _
      refine Yields.mono (Assembly.seek_nothingPending (hrest hidle)) (fun _ st hst => ?_)
        fun _ st hst => ?_
      · exact ⟨fun _ => hst, fun _ => rfl⟩
      · exact consistent_of_nothingPending hst (by simp [hidle])
  | vector => exact fun hidle => consistent_of_nothingPending (hrest hidle) (by simp)
  | digest => exact fun hidle => consistent_of_nothingPending (hrest hidle) (by simp)
  | done =>
      intro hidle _
      have hdone : ({ e with assembly := e.assembly.discard }).Consistent :=
        consistent_of_nothingPending (Assembly.nothingPending_discard _) (by simp [hidle])
      exact yields_of_forall (fun _ _ => hdone) fun _ _ => hdone
  | reset => exact ⟨h.nothingPending, h.unverified⟩
  | ping => exact h

/-- During the copying loop nothing changes in the session but the cursor. -/
theorem copy_session {bytes : Bytes} :
    (copy config chip bytes).Yields (e, board)
      (fun _ st => st.1.session = { e.session with cursor := st.1.session.cursor })
      fun _ st => st.1.session = { e.session with cursor := st.1.session.cursor } :=
  copy_frame.mono (fun _ _ hst => congrArg Engine.session hst)
    fun _ _ hst => congrArg Engine.session hst

/-- The session has the verdict and the activity that it had. -/
def SameSession (e e' : Engine page) : Prop :=
  e'.session.verdict = e.session.verdict ∧ e'.session.activity = e.session.activity

/-- The session has the verdict that it had, and the transfer in it ended with nothing pending. -/
def TransferEnded (e e' : Engine page) : Prop :=
  e'.session.verdict = e.session.verdict ∧ e'.session.activity = .idle ∧ e'.assembly.NothingPending

/-- Payload leaves verdict and activity alone, unless it ends the transfer. -/
theorem receivePayload_session {limit : UInt32} {bytes : Bytes} :
    (receivePayload config chip now limit bytes).Yields (e, board)
      (fun _ st => SameSession e st.1 ∨ TransferEnded e st.1) fun _ st => SameSession e st.1 := by
  have hsame : SameSession e e := ⟨rfl, rfl⟩
  refine yields_receivePayload (fun _ _ => hsame) fun packet _ => ?_
  split
  · exact Or.inl hsame
  · exact Or.inl hsame
  · refine yields_takePayload (fun _ => hsame) fun stop _ => ?_
    have hkept (e' : Engine page) (board' : Board σ)
        (h : e'.session = { e.session with
          cursor := e'.session.cursor
          bytesRead := e.session.bytesRead + UInt32.ofNat packet.payload.length }) :
        SameSession e e' := by
      constructor
      · rw [h]
        rfl
      · rw [h]
    refine copy_session.mono (fun _ st hst => ?_) fun _ st hst => hkept st.1 st.2 hst
    obtain ⟨e', board'⟩ := st
    have hcopied := hkept e' board' hst
    refine ⟨fun _ => yields_complete.mpr ?_, fun _ => Or.inl hcopied⟩
    exact Assembly.commit_nothingPending.mono
      (fun _ st hnothing => Or.inr ⟨hcopied.1, rfl, hnothing⟩) fun _ _ _ => hcopied

theorem receivePayload_consistent (h : e.Consistent) {base length : UInt32}
    (hactivity : e.session.activity = .transfer base length) {limit : UInt32} {bytes : Bytes} :
    (receivePayload config chip now limit bytes).Yields (e, board) (fun _ st => st.1.Consistent)
      fun _ st => st.1.Consistent := by
  have hkept (e' : Engine page) (hsame : SameSession e e') : e'.Consistent := by
    refine ⟨fun hno => absurd (hsame.2.trans hactivity) (hno base length), fun _ => ?_⟩
    exact (congrArg Verdict.verified hsame.1).trans (h.unverified hactivity)
  refine receivePayload_session.mono (fun _ st hst => ?_) fun _ st hst => hkept st.1 hst
  rcases hst with hsame | ⟨_, hidle, hnothing⟩
  · exact hkept st.1 hsame
  · exact consistent_of_nothingPending hnothing (by simp [hidle])

theorem consume_consistent (h : e.Consistent) {bytes : Bytes} :
    (consume config chip now bytes).Yields (e, board) (fun _ st => st.1.Consistent)
      fun _ st => st.1.Consistent := by
  refine yields_consume.mpr ⟨fun _ => ?_, fun _ => ?_⟩
  · cases hactivity : e.session.activity with
    | transfer base length =>
        exact ⟨fun hno => absurd rfl (hno base length), fun _ => h.unverified hactivity⟩
    | idle | chainVector | digest =>
        have hrest := h.nothingPending (by simp [hactivity])
        exact consistent_of_nothingPending hrest (by simp [dropExpected])
  · split
    · exact h
    · next hactivity =>
        have hrest := h.nothingPending (by simp [hactivity])
        exact yields_receiveVector (fun _ => consistent_of_nothingPending hrest (by simp))
          fun _ _ => consistent_of_nothingPending hrest (by simp)
    · next hactivity =>
        have hrest := h.nothingPending (by simp [hactivity])
        refine yields_receiveDigest (fun _ => consistent_of_nothingPending hrest (by simp))
          fun _ _ => yields_checkDigest.mpr (yields_of_forall ?_ ?_)
        · exact fun _ _ => ⟨fun _ => consistent_of_nothingPending hrest (by simp),
            fun _ => consistent_of_nothingPending hrest (by simp)⟩
        · exact fun _ _ => consistent_of_nothingPending hrest (by simp)
    · next hactivity => exact receivePayload_consistent h hactivity

theorem receive_consistent (h : e.Consistent) {packet : Packet} :
    (receive config chip now packet).Yields (e, board) (fun _ st => st.1.Consistent)
      fun _ st => st.1.Consistent := by
  refine yields_receive.mpr ⟨fun _ => h, fun _ _ => ⟨h.nothingPending, h.unverified⟩, fun _ _ => ?_⟩
  cases packet with
  | control bytes =>
      refine yields_handle_control (fun _ _ => h.haltedBy _) fun packet _ => ?_
      exact (execute_consistent h).mono (fun _ _ h => h) fun _ _ h => h.haltedBy _
  | data bytes =>
      exact (consume_consistent h).mono (fun _ _ h => h) fun _ _ h => h.haltedBy _

/-- A command does no more to the flash of a consistent engine than reads do, unless it is `done`,
which may also write. -/
theorem receive_control_keeps {P : Board σ → Prop} (h : e.Consistent)
    (hreads : Board.KeptByReads chip P) {bytes : Bytes}
    (hwrite : ∀ packet, ControlPacket.decode bytes = .ok packet → packet.command = .done →
      (Board.write chip (config.appBase + BootRecord.tagOffset)
        (LittleEndian.encode32 RecordTag.confirmedWord)).Keeps P)
    (hP : P board) :
    (receive config chip now (.control bytes)).Yields (e, board) (fun _ st => P st.2)
      fun _ st => P st.2 := by
  refine yields_receive.mpr ⟨fun _ => hP, fun _ _ => hP, fun _ _ => ?_⟩
  refine yields_handle_control (fun _ _ => hP) fun packet hpacket => ?_
  refine execute_keeps hreads (fun hidle address => ?_) (hwrite packet hpacket) hP
  have hnothing := h.nothingPending (by simp [hidle])
  rw [Assembly.yields_seek_nothing hnothing]
  exact ⟨fun _ => hP, fun _ => Assembly.yields_load.mpr (hreads.read _ _ board hP)⟩

/-- Outside a transfer a data packet does no more to flash than reads do. -/
theorem receive_data_keeps {P : Board σ → Prop} (hreads : Board.KeptByReads chip P) {bytes : Bytes}
    (hactivity : ∀ base length, e.session.activity ≠ .transfer base length) (hP : P board) :
    (receive config chip now (.data bytes)).Yields (e, board) (fun _ st => P st.2)
      fun _ st => P st.2 := by
  refine yields_receive.mpr ⟨fun _ => hP, fun _ _ => hP, fun _ _ => ?_⟩
  exact consume_keeps hreads (fun _ _ h => absurd h (hactivity _ _)) hP

end Engine

end FirmwareUpdate
