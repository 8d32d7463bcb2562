import FirmwareUpdate.Proofs.Engine.Consistent
import Mathlib.Tactic.ByContra

/-!
# What an exchange does to flash

Only payload of a transfer erases flash, and only such payload and `done` write to it; everything
else reads. On an atomic chip the events of an exchange determine the content after it.
-/

namespace FirmwareUpdate

variable {page : Nat} {σ : Type} {config : Config} {chip : NorFlash σ}
variable {s : Snapshot page σ} {a : Arrival}

namespace Board

/-- Among the flash calls recorded there are only reads. -/
def OnlyReads (board : Board σ) : Prop :=
  ∀ call failure, .flash call failure ∈ board.events → ∃ address length, call = .read address length

/-- Among the flash calls recorded there is none that erases. -/
def NeverErases (board : Board σ) : Prop :=
  ∀ start stop failure, .flash (.erase start stop) failure ∉ board.events

theorem keptByReads_onlyReads (chip : NorFlash σ) : KeptByReads chip OnlyReads where
  read address length board h := by
    have hpush (failure : Option FlashError) (flash : σ) :
        OnlyReads ⟨flash, board.events.push (.flash (.read address length) failure)⟩ := by
      intro call failure' hmem
      rcases Array.mem_push.mp hmem with hmem | hmem
      · exact h call failure' hmem
      · cases hmem
        exact ⟨address, length, rfl⟩
    exact yields_call (fun _ _ _ => hpush none _) fun e _ _ => hpush (some e) _
  emit event hcall := keeps_emit fun board h call failure hmem => by
    rcases Array.mem_push.mp hmem with hmem | rfl
    · exact h call failure hmem
    · exact absurd trivial hcall

theorem neverErases_push {board : Board σ} (h : board.NeverErases) {event : Event} {flash : σ}
    (hevent : ∀ start stop failure, event ≠ .flash (.erase start stop) failure) :
    NeverErases ⟨flash, board.events.push event⟩ := by
  intro start stop failure hmem
  rcases Array.mem_push.mp hmem with hmem | hmem
  · exact h start stop failure hmem
  · exact hevent start stop failure hmem.symm

theorem keptByReads_neverErases (chip : NorFlash σ) : KeptByReads chip NeverErases where
  read _ _ _ h := yields_call (fun _ _ _ => neverErases_push h (by simp))
    fun _ _ _ => neverErases_push h (by simp)
  emit event hcall := keeps_emit fun _ h => neverErases_push h (by
    rintro start stop failure rfl
    exact hcall trivial)

theorem write_neverErases (chip : NorFlash σ) (address : UInt32) (bytes : Bytes) :
    (Board.write chip address bytes).Keeps NeverErases :=
  fun _ h => yields_call (fun _ _ _ => neverErases_push h (by simp))
    fun _ _ _ => neverErases_push h (by simp)

end Board

/-- The peer was told nothing. -/
def Exchange.Silent (x : Exchange page σ) : Prop := ∀ event ∈ x.events, event.IsCall

namespace Snapshot

/-- Nothing but reads when the packet neither is `done` nor carries payload. -/
theorem exchange_keeps {P : Board σ → Prop} (hs : s.engine.Consistent)
    (hreads : Board.KeptByReads chip P)
    (hpayload : ¬(s.exchange config chip a).CarriesPayload)
    (hwrite : (s.exchange config chip a).Asks .done →
      (Board.write chip (config.appBase + BootRecord.tagOffset)
        (LittleEndian.encode32 RecordTag.confirmedWord)).Keeps P)
    (hP : P { flash := s.flash }) :
    P { flash := (s.exchange config chip a).after.flash
        events := (s.exchange config chip a).events } := by
  apply exchange_of_yields (Q := fun _ _ board => P board)
  simp only [Exchange.CarriesPayload, Exchange.Asks, exchange_arrival, exchange_before] at hpayload hwrite
  cases hpacket : a.packet with
  | control bytes =>
      refine Engine.receive_control_keeps hs hreads (fun packet hdecode hcommand => ?_) hP
      refine hwrite ⟨packet, ?_, hcommand⟩
      simp [hpacket, Packet.command?, hdecode, Except.toOption]
  | data bytes =>
      refine Engine.receive_data_keeps hreads (fun base length hactivity => ?_) hP
      exact hpayload ⟨⟨bytes, hpacket⟩, base, length, hactivity⟩

theorem exchange_consistent (hs : s.engine.Consistent) :
    (s.exchange config chip a).after.engine.Consistent :=
  exchange_of_yields (Q := fun _ e _ => e.Consistent) (Engine.receive_consistent hs)

theorem run_consistent (hs : s.engine.Consistent) (as : List Arrival) :
    (s.run config chip as).engine.Consistent :=
  run_induction (P := fun s => s.engine.Consistent) hs fun _ _ _ => exchange_consistent

theorem carriesPayload_of_erases (hs : s.engine.Consistent)
    (h : (s.exchange config chip a).Erases) : (s.exchange config chip a).CarriesPayload := by
  obtain ⟨start, stop, failure, hmem⟩ := h
  by_contra hpayload
  exact exchange_keeps hs (Board.keptByReads_neverErases chip) hpayload
    (fun _ => Board.write_neverErases chip _ _) (by simp [Board.NeverErases]) start stop failure hmem

theorem carriesPayload_or_asks_done_of_writes (hs : s.engine.Consistent)
    (h : (s.exchange config chip a).Writes) :
    (s.exchange config chip a).CarriesPayload ∨ (s.exchange config chip a).Asks .done := by
  obtain ⟨address, bytes, failure, hmem⟩ := h
  by_contra hneither
  rw [not_or] at hneither
  obtain ⟨_, _, hread⟩ := exchange_keeps hs (Board.keptByReads_onlyReads chip) hneither.1
    (fun hdone => absurd hdone hneither.2) (by simp [Board.OnlyReads]) _ _ hmem
  cases hread

variable {view : NorFlash.View σ}

/-- On an atomic chip the content after an exchange is told by its events. -/
theorem exchange_replays (atomic : chip.Atomic view) (sound : view.Sound s.flash) :
    view.Sound (s.exchange config chip a).after.flash ∧
      view.content (s.exchange config chip a).after.flash =
        (view.content s.flash).replay (s.exchange config chip a).events := by
  apply exchange_of_yields (Q := fun _ _ board => Board.Replays view (view.content s.flash) board)
  exact Engine.receive_keeps (Board.keptByCalls_replays atomic _) _ _ ⟨sound, rfl⟩

theorem run_sound (atomic : chip.Atomic view) (sound : view.Sound s.flash) (as : List Arrival) :
    view.Sound (s.run config chip as).flash :=
  run_induction (P := fun s => view.Sound s.flash) sound
    fun _ _ _ h => (exchange_replays atomic h).1

end Snapshot

end FirmwareUpdate
