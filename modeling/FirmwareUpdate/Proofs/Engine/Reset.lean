import FirmwareUpdate.Proofs.Engine.Exchange
import FirmwareUpdate.Proofs.Engine.Reception

/-!
# When a reset is asked for

A reset is asked for by an accepted `reset`, and stays asked for whatever comes after.
-/

namespace FirmwareUpdate

variable {page : Nat} {σ : Type} {config : Config} {chip : NorFlash σ}

namespace Engine

open Attempt

variable {now : UInt64} {e : Engine page} {board : Board σ}

/-- Only an accepted `reset` asks for a reset. -/
theorem execute_resetRequested {packet : ControlPacket} :
    (execute config chip now packet).Yields (e, board)
      (fun _ st => st.1.resetRequested = true ↔
        e.resetRequested = true ∨ packet.command = .reset)
      fun _ st => st.1.resetRequested = e.resetRequested := by
  refine yields_execute (fun _ _ => ?_) ?_
  · rfl
  cases packet.command with
  | restart => simp
  | data => exact fun _ _ _ _ => yields_of_forall (by simp) (by simp)
  | vector => simp
  | digest => simp
  | done => exact fun _ _ => yields_of_forall (by simp) (by simp)
  | reset => simp
  | ping => simp

/-- No data packet asks for a reset. -/
theorem consume_resetRequested {bytes : Bytes} :
    (consume config chip now bytes).Yields (e, board)
      (fun _ st => st.1.resetRequested = e.resetRequested)
      fun _ st => st.1.resetRequested = e.resetRequested :=
  consume_sameFlags.mono (fun _ _ hst => hst.2) fun _ _ hst => hst.2

end Engine

namespace Snapshot

variable {s : Snapshot page σ} {a : Arrival}

/-- A reset is asked for afterwards if it was before, or if the packet was accepted as `reset`. -/
theorem exchange_resetRequested :
    (s.exchange config chip a).after.engine.resetRequested = true ↔
      s.engine.resetRequested = true ∨ (s.exchange config chip a).Accepts .reset := by
  rw [Exchange.Accepts, Exchange.Asks, exchange_arrival]
  apply exchange_of_yields (Q := fun answer e _ => e.resetRequested = true ↔
    s.engine.resetRequested = true ∨ answer = .ok () ∧
      ∃ p, a.packet.command? = some p ∧ p.command = .reset)
  refine Engine.yields_receive.mpr ⟨fun _ => by simp, fun _ _ => by simp, fun _ _ => ?_⟩
  cases hpacket : a.packet with
  | control bytes =>
      refine Engine.yields_handle_control (fun _ _ => by simp [Engine.haltedBy])
        fun packet hdecode => ?_
      refine Engine.execute_resetRequested.mono (fun _ st hst => ?_) fun err st hst => ?_
      · simp [hst, Packet.command?, hdecode, Except.toOption]
      · simp [Engine.haltedBy, hst]
  | data bytes =>
      refine Engine.consume_resetRequested.mono (fun _ st hst => ?_) fun err st hst => ?_
      · simp [hst, Packet.command?]
      · simp [Engine.haltedBy, hst]

/-- A reset is asked for after a run exactly if it was before or a `reset` was accepted. -/
theorem run_resetRequested (as : List Arrival) :
    (s.run config chip as).engine.resetRequested = true ↔
      s.engine.resetRequested = true ∨ ∃ x ∈ s.exchanges config chip as, x.Accepts .reset := by
  induction as generalizing s with
  | nil => simp [run, exchanges]
  | cons a as ih =>
      rw [run, ih, exchange_resetRequested]
      simp [exchanges, or_assoc]

end Snapshot

end FirmwareUpdate
