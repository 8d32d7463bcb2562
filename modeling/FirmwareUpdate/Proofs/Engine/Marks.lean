import FirmwareUpdate.Proofs.Digest
import FirmwareUpdate.Proofs.Engine.Effects
import Mathlib.Data.List.Induction

/-!
# The history behind the verdict

Four kinds of exchange decide the verdict: transfers begun, new sessions, and digests that were
checked. The verdict is that of the last of them; every other packet leaves it as it was.
-/

namespace FirmwareUpdate

variable {page : Nat} {σ : Type} {config : Config} {chip : NorFlash σ}
variable {s : Snapshot page σ} {a : Arrival}

/-- What an exchange means for the verdict. -/
inductive Mark where
  | transfer
  | restart
  | matched
  | mismatched
deriving DecidableEq, Repr

/-- The verdict after a marked exchange. -/
def Mark.verdict (verdict : Verdict) : Mark → Verdict
  | transfer => verdict.afterTransfer
  | restart => .unchecked
  | matched => .matched
  | mismatched => .failed

/-- What accepting a command means for the verdict. -/
def Command.mark : Command → Option Mark
  | data => some .transfer
  | restart => some .restart
  | _ => none

/-- The mark of a packet, by what was awaited when it came and by its answer. -/
def Packet.mark (packet : Packet) (activity : Activity) (answer : Except UpdateError Unit) :
    Option Mark :=
  match packet, activity, answer with
  | .control bytes, _, .ok () => (Packet.control bytes).command?.bind (·.command.mark)
  | .data _, .digest _ _, .ok () => some .matched
  | .data _, .digest _ _, .error (.digestMismatch _) => some .mismatched
  | _, _, _ => none

/-- The mark of an exchange: an accepted `data` or `restart`, or a digest compared. -/
def Exchange.mark (x : Exchange page σ) : Option Mark :=
  x.arrival.packet.mark x.before.engine.session.activity x.answer

/-- The verdict after an exchange that has a mark or none. -/
def Verdict.marked (verdict : Verdict) : Option Mark → Verdict
  | none => verdict
  | some mark => mark.verdict verdict

/-- A verdict is a match only if the exchange was one or left the verdict alone. -/
theorem Verdict.marked_eq_matched_iff {verdict : Verdict} {mark : Option Mark} :
    verdict.marked mark = .matched ↔
      mark = some .matched ∨ (mark = none ∧ verdict = .matched) := by
  rcases mark with _ | _ | _ | _ | _ <;>
    simp [marked, Mark.verdict, afterTransfer, unchecked, matched, failed]

/-- No exchange sets both flags. -/
theorem Verdict.Exclusive.marked {verdict : Verdict} (h : verdict.Exclusive) (mark : Option Mark) :
    (verdict.marked mark).Exclusive := by
  rcases mark with _ | _ | _ | _ | _
  case none => exact h
  all_goals simp [Exclusive, Verdict.marked, Mark.verdict, afterTransfer, unchecked, matched, failed]

theorem Exchange.mark_eq_matched {x : Exchange page σ} (h : x.mark = some .matched) :
    ∃ address size bytes, x.answer = .ok () ∧
      x.before.engine.session.activity = .digest address size ∧ x.arrival.packet = .data bytes := by
  unfold mark Packet.mark at h
  split at h
  · obtain ⟨p, _, hp⟩ := Option.bind_eq_some_iff.mp h
    cases hcommand : p.command <;> simp [Command.mark, hcommand] at hp
  · next hpacket hactivity hanswer => exact ⟨_, _, _, hanswer, hactivity, hpacket⟩
  · simp at h
  · simp at h

/-- Only an accepted `data` is marked as a transfer. -/
theorem Exchange.accepts_data_of_mark {x : Exchange page σ} (h : x.mark = some .transfer) :
    x.Accepts .data := by
  unfold mark Packet.mark at h
  split at h
  · next hpacket hanswer =>
      obtain ⟨packet, hdecode, hcommand⟩ := Option.bind_eq_some_iff.mp h
      refine ⟨hanswer, packet, ?_, ?_⟩
      · rw [hpacket]
        exact hdecode
      · cases hcase : packet.command <;> simp_all [Command.mark]
  · simp at h
  · simp at h
  · simp at h

theorem Exchange.Begins.mark {x : Exchange page σ} {base : UInt32} {length : UInt16}
    (h : x.Begins base length) : x.mark = some .transfer := by
  obtain ⟨hanswer, hcommand⟩ := h
  cases hpacket : x.arrival.packet with
  | control bytes =>
      rw [hpacket] at hcommand
      simp [Exchange.mark, Packet.mark, hpacket, hanswer, hcommand, Command.mark]
  | data bytes => simp [hpacket, Packet.command?] at hcommand

namespace Engine

open Attempt

variable {now : UInt64} {e : Engine page} {board : Board σ}

/-- A command leaves the verdict alone unless it is an accepted `data` or `restart`. -/
theorem execute_verdict {bytes : Bytes} {packet : ControlPacket}
    (hdecode : ControlPacket.decode bytes = .ok packet) (activity : Activity) :
    (execute config chip now packet).Yields (e, board)
      (fun _ st => st.1.session.verdict =
        e.session.verdict.marked ((Packet.control bytes).mark activity (.ok ())))
      fun _ st => st.1.session.verdict = e.session.verdict := by
  have hmark : (Packet.control bytes).mark activity (.ok ()) = packet.command.mark := by
    simp [Packet.mark, Packet.command?, hdecode, Except.toOption]
  rw [hmark]
  refine yields_execute (fun _ _ => rfl) ?_
  cases packet.command with
  | restart => rfl
  | data => exact fun _ _ _ _ => yields_of_forall (fun _ _ => rfl) fun _ _ => rfl
  | vector => exact fun _ => rfl
  | digest => exact fun _ => rfl
  | done => exact fun _ _ => yields_of_forall (fun _ _ => rfl) fun _ _ => rfl
  | reset => rfl
  | ping => rfl

/-- Data leaves the verdict alone unless it is a digest that is compared. -/
theorem consume_verdict {bytes : Bytes} :
    (consume config chip now bytes).Yields (e, board)
      (fun _ st => st.1.session.verdict =
        e.session.verdict.marked ((Packet.data bytes).mark e.session.activity (.ok ())))
      fun err st => st.1.session.verdict =
        e.session.verdict.marked ((Packet.data bytes).mark e.session.activity (.error err)) := by
  refine yields_consume.mpr ⟨fun _ => ?_, fun _ => ?_⟩
  · cases e.session.activity <;> rfl
  · cases hactivity : e.session.activity with
    | idle => rfl
    | chainVector => exact yields_receiveVector (fun _ => rfl) fun _ _ => rfl
    | digest address size =>
        refine yields_receiveDigest (fun _ => rfl) fun expected _ => yields_checkDigest.mpr ?_
        refine (Region.digest_refuses_flash chip address size).mono
          (fun _ _ _ => ⟨fun _ => rfl, fun _ => rfl⟩) ?_
        rintro err _ ⟨failure, rfl⟩
        rfl
    | transfer base length =>
        refine receivePayload_session.mono (fun _ st hst => ?_) fun _ st hsame => hsame.1
        rcases hst with hsame | hended
        · exact hsame.1
        · exact hended.1

theorem receive_verdict {packet : Packet} :
    (receive config chip now packet).Yields (e, board)
      (fun _ st => st.1.session.verdict =
        e.session.verdict.marked (packet.mark e.session.activity (.ok ())))
      fun err st => st.1.session.verdict =
        e.session.verdict.marked (packet.mark e.session.activity (.error err)) := by
  have hrefused (bytes : Bytes) (err : UpdateError) :
      e.session.verdict.marked ((Packet.control bytes).mark e.session.activity (.error err)) =
        e.session.verdict := rfl
  cases packet with
  | control bytes =>
      simp only [hrefused]
      refine yields_receive.mpr ⟨fun _ => rfl, fun _ _ => rfl, fun _ _ => ?_⟩
      refine yields_handle_control (fun _ _ => rfl) fun packet hdecode => ?_
      exact (execute_verdict hdecode _).mono (fun _ _ h => h) fun _ _ h => h
  | data bytes =>
      refine yields_receive.mpr ⟨fun _ => ?_, fun _ _ => ?_, fun _ _ => ?_⟩
      · cases e.session.activity <;> rfl
      · cases e.session.activity <;> rfl
      · exact consume_verdict.mono (fun _ _ h => h) fun _ _ h => h

end Engine

namespace Snapshot

theorem exchange_verdict :
    (s.exchange config chip a).after.engine.session.verdict =
      s.engine.session.verdict.marked (s.exchange config chip a).mark := by
  rw [Exchange.mark, exchange_arrival, exchange_before]
  exact exchange_of_yields (Q := fun answer e _ => e.session.verdict =
    s.engine.session.verdict.marked (a.packet.mark s.engine.session.activity answer))
    Engine.receive_verdict

/-- Flags that are not both set are never both set. -/
theorem run_exclusive (hs : s.engine.session.verdict.Exclusive) (as : List Arrival) :
    (s.run config chip as).engine.session.verdict.Exclusive := by
  induction as using List.reverseRecOn with
  | nil => exact hs
  | append_singleton as a ih =>
      rw [run_concat, exchange_verdict]
      exact ih.marked _

/-- The verdict after a run of a fresh engine is a match exactly if the last marked exchange was
one. -/
theorem run_verdict_eq_matched_iff (hs : s.engine.session.verdict ≠ .matched) (as : List Arrival) :
    (s.run config chip as).engine.session.verdict = .matched ↔
      ((s.exchanges config chip as).filterMap Exchange.mark).getLast? = some .matched := by
  induction as using List.reverseRecOn with
  | nil => simp [run, exchanges, hs]
  | append_singleton as a ih =>
      rw [run_concat, exchanges_concat, exchange_verdict, Verdict.marked_eq_matched_iff, ih]
      cases hmark : (exchange config chip (s.run config chip as) a).mark with
      | none => simp [hmark]
      | some mark => simp [hmark]

end Snapshot

end FirmwareUpdate
