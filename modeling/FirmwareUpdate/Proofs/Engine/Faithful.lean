import FirmwareUpdate.Proofs.Engine.Effects
import FirmwareUpdate.Proofs.Mirror

/-!
# The buffered unit mirrors flash in every reachable state

What all use of the unit under assembly preserves, every packet preserves. So no packet breaks the
agreement between the buffered unit and flash. Calls that fail may leave anything behind: the unit they
were made for is given up, and `done` gives it up before it writes.
-/

namespace FirmwareUpdate

variable {page : Nat} {σ α : Type} {config : Config} {chip : NorFlash σ} {view : NorFlash.View σ}

/-- All that is done to the unit under assembly, and to flash beside it, preserves the property. -/
structure Assembly.KeptByUse (config : Config) (chip : NorFlash σ)
    (Q : Assembly page × Board σ → Prop) : Prop where
  seek : ∀ address, (Assembly.seek config.key chip address).Keeps Q
  insert : ∀ address bytes, (Assembly.insert address bytes).Keeps Q
  commit : (Assembly.commit config.key chip).Keeps Q
  discard : ∀ {a board}, Q (a, board) → Q (a.discard, board)
  seed : ∀ {a board}, Q (a, board) → ∀ vector, Q ({ a with vector }, board)
  reads : ∀ a, Board.KeptByReads chip fun board => Q (a, board)
  /-- Flash is written elsewhere only after the unit was given up. -/
  write : ∀ (a : Assembly page) address bytes,
    (Board.write chip address bytes).Keeps fun board => Q (a.discard, board)

namespace Engine

open Attempt

variable {now : UInt64} {e : Engine page} {board : Board σ} {Q : Assembly page × Board σ → Prop}

theorem assemble_keeps_use {attempt : Attempt (Assembly page × Board σ) α} (h : attempt.Keeps Q) :
    (assemble attempt).Keeps fun st => Q (st.1.assembly, st.2) := by
  rintro ⟨e, board⟩ hst
  exact yields_assemble.mpr (h (e.assembly, board) hst)

theorem execute_keeps_use (h : Assembly.KeptByUse config chip Q) (hst : Q (e.assembly, board))
    {packet : ControlPacket} :
    (execute config chip now packet).Yields (e, board) (fun _ st => Q (st.1.assembly, st.2))
      fun _ st => Q (st.1.assembly, st.2) := by
  apply yields_execute (fun _ _ => hst)
  cases packet.command with
  | restart => exact (h.reads _).emit (.connection _) id board (h.discard hst)
  | data => exact fun _ _ _ _ => h.seek _ (e.assembly, board) hst
  | vector => exact fun _ => hst
  | digest => exact fun _ => hst
  | done =>
      exact fun _ _ => confirmation_keeps (h.reads _).read _ (h.write _ _ _) board (h.discard hst)
  | reset => exact hst
  | ping => exact (h.reads _).emit (.report _) id board hst

theorem receivePayload_keeps_use (h : Assembly.KeptByUse config chip Q) {limit : UInt32}
    {bytes : Bytes} :
    (receivePayload config chip now limit bytes : Step page σ Unit).Keeps
      fun st => Q (st.1.assembly, st.2) := by
  rintro ⟨e, board⟩ hst
  refine yields_receivePayload (fun _ _ => hst) fun packet _ => ?_
  split
  · exact (h.reads _).emit (.progress _) id board hst
  · exact hst
  · refine yields_takePayload (fun _ => hst) fun stop _ => ?_
    refine Yields.mono (copy_keeps (fun _ => assemble_keeps_use (h.seek _))
      (fun _ _ => assemble_keeps_use (h.insert _ _)) (fun _ _ _ hst => hst) _ _ hst)
      (fun _ st hst => ⟨fun _ => ?_, fun _ => hst⟩) fun _ _ hst => hst
    obtain ⟨e', board'⟩ := st
    rw [yields_complete]
    exact (h.commit (e'.assembly, board') hst).mono
      (fun _ st hst => (h.reads _).emit (.report _) id st.2 hst) fun _ _ hst => hst

theorem consume_keeps_use (h : Assembly.KeptByUse config chip Q) (hst : Q (e.assembly, board))
    {bytes : Bytes} :
    (consume config chip now bytes).Yields (e, board) (fun _ st => Q (st.1.assembly, st.2))
      fun _ st => Q (st.1.assembly, st.2) := by
  refine yields_consume.mpr ⟨fun _ => hst, fun _ => ?_⟩
  split
  · exact hst
  · exact yields_receiveVector (fun _ => hst) fun vector _ => h.seed hst vector
  · refine yields_receiveDigest (fun _ => hst) fun _ _ => yields_checkDigest.mpr ?_
    exact (digest_keeps (h.reads _).read _ _ board hst).mono
      (fun _ board hst => ⟨fun _ => hst, fun _ => (h.reads _).emit (.progress _) id board hst⟩)
      fun _ _ hst => hst
  · exact receivePayload_keeps_use h (e, board) hst

/-- What all use of the unit under assembly preserves, every packet preserves. -/
theorem receive_keeps_use (h : Assembly.KeptByUse config chip Q) {packet : Packet} :
    (receive config chip now packet : Step page σ Unit).Keeps fun st => Q (st.1.assembly, st.2) := by
  rintro ⟨e, board⟩ hst
  refine yields_receive.mpr ⟨fun _ => hst, fun _ _ => hst, fun _ _ => ?_⟩
  cases packet with
  | control bytes =>
      refine yields_handle_control (fun _ _ => hst) fun packet _ => ?_
      exact (execute_keeps_use h hst).mono (fun _ _ hst => hst) fun _ _ hst => hst
  | data bytes => exact (consume_keeps_use h hst).mono (fun _ _ hst => hst) fun _ _ hst => hst

/-- The buffered unit mirrors a chip that is what it seems to be. -/
def Faithful (view : NorFlash.View σ) (st : Engine page × Board σ) : Prop :=
  Assembly.Faithful view (st.1.assembly, st.2)

end Engine

theorem Assembly.keptByUse_faithful (honest : chip.Honest view) (hfits : page < UInt32.size) :
    KeptByUse config chip (Faithful view : Assembly page × Board σ → Prop) where
  seek _ := seek_faithful honest hfits
  insert _ _ := insert_faithful
  commit := commit_faithful honest hfits
  discard h := ⟨h.1, mirrors_discard _⟩
  seed h _ := h
  reads a :=
    { read := fun address length board h => by
        refine Board.yields_read honest.truthful h.1 (fun _ flash hsound hcontent _ => ?_)
          fun _ flash hsound hcontent => ?_
        · refine ⟨hsound, ?_⟩
          rw [hcontent]
          exact h.2
        · refine ⟨hsound, ?_⟩
          rw [hcontent]
          exact h.2
      emit := fun _ _ => Board.keeps_emit fun _ h => h }
  write a address bytes board h :=
    ((Board.keptByCalls_sound honest.confined).write address bytes board h.1).mono
      (fun _ _ hsound => ⟨hsound, mirrors_discard a⟩) fun _ _ hsound => ⟨hsound, mirrors_discard a⟩

namespace Snapshot

theorem exchange_faithful {s : Snapshot page σ} {a : Arrival} (honest : chip.Honest view)
    (hfits : page < UInt32.size) (hs : Engine.Faithful view (s.engine, { flash := s.flash })) :
    Engine.Faithful view ((s.exchange config chip a).after.engine,
      { flash := (s.exchange config chip a).after.flash }) :=
  exchange_of_yields (Q := fun _ e board => Engine.Faithful view (e, board))
    (Engine.receive_keeps_use (Assembly.keptByUse_faithful honest hfits) _ hs)

/-- The buffered unit of an engine that began fresh mirrors flash, whatever it received. -/
theorem run_faithful (honest : chip.Honest view) (hfits : page < UInt32.size) {flash : σ}
    (sound : view.Sound flash) (as : List Arrival) :
    view.Sound ((⟨{}, flash⟩ : Snapshot page σ).run config chip as).flash ∧
      ((⟨{}, flash⟩ : Snapshot page σ).run config chip as).engine.assembly.Mirrors
        (view.content ((⟨{}, flash⟩ : Snapshot page σ).run config chip as).flash) := by
  refine run_induction (P := fun s => view.Sound s.flash ∧
    s.engine.assembly.Mirrors (view.content s.flash)) ⟨sound, fun u h => by simp at h⟩
    fun _ _ _ hs => exchange_faithful honest hfits hs

end Snapshot

end FirmwareUpdate
