import FirmwareUpdate.Proofs.Engine.Effects
import FirmwareUpdate.Proofs.Mirror

/-!
# What refuses payload, and when the engine halts

Payload that is wanted is refused before anything is done, or because flash or the pending bytes stand in
its way. That does not stop the engine: what does is only found while nothing is awaited. So an engine that
awaits something is not halted and fits the chip, whatever packets came and whatever the chip answered.
-/

namespace FirmwareUpdate

variable {page : Nat} {σ : Type} {config : Config} {chip : NorFlash σ}

theorem UpdateError.Interrupts.not_fatal {err : UpdateError} (h : err.Interrupts) :
    err.isFatal = false := by
  cases err with
  | flash | unaligned => rfl
  | _ => exact h.elim

/-! ### What refuses payload -/

namespace Assembly

open Attempt

variable {key : Aes256.Key} {a : Assembly page} {board : Board σ} {address : UInt32}

theorem commit_interrupts :
    (commit key chip).Yields (a, board) (fun _ _ => True) fun err _ => err.Interrupts := by
  rcases a.nothingToCommit_or_pending with hnothing | ⟨u, s, hu, hs⟩
  · exact (yields_commit_nothing hnothing).mpr trivial
  rw [yields_commit_pending hu hs]
  split
  · trivial
  rw [yields_program]
  split
  · trivial
  rw [yields_reprogram]
  exact Board.yields_call
    (fun _ _ _ => Board.yields_call (fun _ _ _ => trivial) fun _ _ _ => trivial) fun _ _ _ => trivial

/-- The unit sought is buffered, unless flash or the pending bytes stand in the way. -/
theorem seek_interrupts :
    (seek key chip address).Yields (a, board)
      (fun _ st => st.1.base? = some (Address.unitBase page address)) fun err _ => err.Interrupts := by
  refine yields_seek.mpr ⟨id, fun _ => ?_⟩
  refine commit_interrupts.mono (fun _ st _ => ?_) fun _ _ => id
  obtain ⟨a', board'⟩ := st
  rw [yields_load]
  exact Board.yields_call (fun _ _ _ => rfl) fun _ _ _ => trivial

end Assembly

namespace Engine

open Attempt

variable {now : UInt64} {e : Engine page} {board : Board σ}
variable {post : Unit → Engine page × Board σ → Prop}
variable {refused : UpdateError → Engine page × Board σ → Prop}

theorem copy_interrupts (hpos : 0 < page) {bytes : Bytes} :
    (copy config chip bytes).Yields (e, board) (fun _ _ => True) fun err _ => err.Interrupts := by
  induction hlength : bytes.length using Nat.strongRecOn generalizing bytes e board with
  | ind n ih =>
      cases bytes with
      | nil =>
          rw [copy_nil]
          trivial
      | cons b bs =>
          rw [yields_copy_cons]
          refine Assembly.seek_interrupts.mono (fun _ st hthere => ?_) fun _ _ => id
          obtain ⟨u, hu, hbase⟩ := Option.map_eq_some_iff.mp hthere
          rw [Assembly.yields_insert_of_contains hu (UnitBuffer.contains_of_base hpos hbase)]
          refine ih _ ?_ rfl
          subst hlength
          simp only [List.length_drop, List.length_cons]
          omega

/-- The latch is as it was before the step. -/
def SameLatch (e : Engine page) (st : Engine page × Board σ) : Prop := st.1.halted = e.halted

theorem copy_latch {bytes : Bytes} :
    (copy config chip bytes).Yields (e, board) (fun _ st => SameLatch e st) fun _ st => SameLatch e st :=
  copy_sameFlags.mono (fun _ _ hst => hst.1) fun _ _ hst => hst.1

/-- Payload that is wanted runs past the end of the transfer, or something stands in its way. -/
theorem takePayload_refused (hpos : 0 < page) {limit : UInt32} {packet : PayloadPacket} :
    (takePayload config chip now limit packet).Yields (e, board) (fun _ st => SameLatch e st)
      fun err st => SameLatch e st ∧ (err.Interrupts ∨ err.OfPacket ∧ st = (e, board)) := by
  refine yields_takePayload (fun _ => ⟨rfl, Or.inr ⟨trivial, rfl⟩⟩) fun stop _ => ?_
  refine ((copy_interrupts hpos).and copy_latch).mono (fun _ st hst => ?_)
    fun _ _ hst => ⟨hst.2, Or.inl hst.1⟩
  obtain ⟨e', board'⟩ := st
  obtain ⟨-, hlatch⟩ := hst
  refine ⟨fun _ => yields_complete.mpr ?_, fun _ => hlatch⟩
  exact Assembly.commit_interrupts.mono (fun _ _ _ => hlatch)
    fun _ _ hinterrupts => ⟨hlatch, Or.inl hinterrupts⟩

/-! ### When the engine halts -/

/-- The latch is as it was before the step, and a fatal error is met only where nothing is awaited. -/
def LatchedIdle (e : Engine page) (err : UpdateError) (st : Engine page × Board σ) : Prop :=
  SameLatch e st ∧ (err.isFatal → st.1.session.activity = .idle)

theorem latchedIdle_of_not_fatal {err : UpdateError} {st : Engine page × Board σ}
    (hlatch : SameLatch e st) (hfatal : err.isFatal = false) : LatchedIdle e err st :=
  ⟨hlatch, fun h => by simp [hfatal] at h⟩

theorem execute_latch {packet : ControlPacket} :
    (execute config chip now packet).Yields (e, board) (fun _ st => SameLatch e st) (LatchedIdle e) := by
  apply yields_execute fun _ hfatal => latchedIdle_of_not_fatal rfl hfatal
  cases packet.command with
  | restart => exact rfl
  | data =>
      exact fun hidle _ _ _ => yields_of_forall (fun _ _ => rfl) fun _ _ => ⟨rfl, fun _ => hidle⟩
  | vector => exact fun _ => rfl
  | digest => exact fun _ => rfl
  | done => exact fun hidle _ => yields_of_forall (fun _ _ => rfl) fun _ _ => ⟨rfl, fun _ => hidle⟩
  | reset => exact rfl
  | ping => exact rfl

theorem consume_latch (hpos : 0 < page) {bytes : Bytes} :
    (consume config chip now bytes).Yields (e, board) (fun _ st => SameLatch e st) (LatchedIdle e) := by
  refine yields_consume.mpr ⟨fun _ => latchedIdle_of_not_fatal rfl rfl, fun _ => ?_⟩
  split
  · exact latchedIdle_of_not_fatal rfl rfl
  · exact yields_receiveVector (fun _ => ⟨rfl, fun _ => rfl⟩) fun _ _ => rfl
  · exact yields_receiveDigest (fun _ => ⟨rfl, fun _ => rfl⟩) fun _ _ => yields_checkDigest.mpr
      (yields_of_forall (fun _ _ => ⟨fun _ => rfl, fun _ => ⟨rfl, fun _ => rfl⟩⟩)
        fun _ _ => ⟨rfl, fun _ => rfl⟩)
  · refine yields_receivePayload (fun _ _ => latchedIdle_of_not_fatal rfl rfl) fun packet _ => ?_
    split
    · exact rfl
    · exact rfl
    · refine (takePayload_refused hpos).mono (fun _ _ => id) fun err st hst => ?_
      rcases hst with ⟨hlatch, hinterrupts | ⟨hpacket, -⟩⟩
      · exact latchedIdle_of_not_fatal hlatch hinterrupts.not_fatal
      · exact latchedIdle_of_not_fatal hlatch hpacket.not_fatal

theorem handle_latch (hpos : 0 < page) {packet : Packet} :
    (handle config chip now packet).Yields (e, board) (fun _ st => SameLatch e st) (LatchedIdle e) := by
  cases packet with
  | control bytes =>
      exact yields_handle_control (fun _ _ => latchedIdle_of_not_fatal rfl rfl)
        fun packet _ => execute_latch
  | data bytes => exact consume_latch hpos

/-- While something is awaited, the engine is not halted and fits the chip. -/
def Attentive (chip : NorFlash σ) (e : Engine page) : Prop :=
  e.session.activity ≠ .idle → e.halted = false ∧ chip.eraseSize = page

theorem attentive_fresh : ({} : Engine page).Attentive chip := fun hbusy => absurd rfl hbusy

theorem receive_attentive (hpos : 0 < page) (h : e.Attentive chip) {packet : Packet} :
    (receive config chip now packet).Yields (e, board) (fun _ st => st.1.Attentive chip)
      fun _ st => st.1.Attentive chip := by
  refine yields_receive.mpr
    ⟨fun _ => h, fun _ hunit hbusy => absurd (h hbusy).2 hunit, fun hrunning hunit => ?_⟩
  have hopen : e.halted = false := Bool.eq_false_iff.mpr hrunning
  refine (handle_latch hpos).mono (fun _ st hlatch _ => ⟨hlatch.trans hopen, hunit⟩)
    fun err st hst hbusy => ⟨?_, hunit⟩
  have hfatal : err.isFatal = false := Bool.eq_false_iff.mpr fun hfatal => hbusy (hst.2 hfatal)
  rw [haltedBy_of_not_fatal hfatal]
  exact hst.1.trans hopen

/-- An engine that awaits something does with a packet what it asks for. -/
theorem Attentive.yields_receive (h : e.Attentive chip) (hbusy : e.session.activity ≠ .idle)
    {packet : Packet}
    (hhandled : (handle config chip now packet).Yields (e, board) post
      fun err st => refused err (st.1.haltedBy err, st.2)) :
    (receive config chip now packet).Yields (e, board) post refused := by
  obtain ⟨hopen, hunit⟩ := h hbusy
  exact Engine.yields_receive.mpr ⟨fun hhalted => by simp [hopen] at hhalted,
    fun _ hother => absurd hunit hother, fun _ _ => hhandled⟩

end Engine

namespace Snapshot

theorem run_attentive (hpos : 0 < page) (flash : σ) (past : List Arrival) :
    ((⟨{}, flash⟩ : Snapshot page σ).run config chip past).engine.Attentive chip := by
  apply run_induction (P := fun s => s.engine.Attentive chip) Engine.attentive_fresh
  intro s a _ hs
  exact exchange_of_yields (Q := fun _ e _ => e.Attentive chip) (Engine.receive_attentive hpos hs)

end Snapshot

end FirmwareUpdate
