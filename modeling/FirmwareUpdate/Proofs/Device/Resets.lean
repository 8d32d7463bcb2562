import FirmwareUpdate.Proofs.Device.Interleaving
import FirmwareUpdate.Proofs.Engine.Reset
import Mathlib.Logic.Basic
import Mathlib.Tactic.ByContra

/-!
# When the device resets

An accepted `reset` arms the device, and nothing disarms it. The device resets at the first end of a
connection that the updater takes up from then on, and at no other time, however radio and updater
interleave.
-/

namespace FirmwareUpdate

namespace Snapshot

variable {page : Nat} {σ : Type} {config : Config} {chip : NorFlash σ} {s : Snapshot page σ}
variable {a : Arrival}

/-- A `reset` is accepted by every engine that is not halted and fits its chip. -/
theorem exchange_accepts_reset_iff :
    (s.exchange config chip a).Accepts .reset ↔
      (s.exchange config chip a).Asks .reset ∧ s.engine.halted = false ∧ chip.eraseSize = page := by
  rw [Exchange.Accepts, and_comm, Exchange.Asks, exchange_arrival]
  refine and_congr_right fun hasks => ?_
  obtain ⟨p, hp, hcommand⟩ := hasks
  apply exchange_of_yields (Q := fun answer _ _ => answer = .ok () ↔
    s.engine.halted = false ∧ chip.eraseSize = page)
  refine Engine.yields_receive.mpr ⟨?_, ?_, ?_⟩
  · intro hhalted
    simp [hhalted]
  · intro _ hunit
    simp [hunit]
  · intro hhalted hunit
    have hreset : (Engine.execute config chip a.now p : Engine.Step page σ Unit) =
        Engine.update fun e => { e with resetRequested := true } := by
      simp only [Engine.execute, hcommand]
    rw [Engine.handle_of_command hp, hreset, Engine.yields_update]
    exact iff_of_true rfl ⟨Bool.eq_false_iff.mpr hhalted, hunit⟩

end Snapshot

namespace Device

variable {σ : Type} {config : Config} {chip : NorFlash σ}

namespace UpdateMode

variable {m : UpdateMode σ}

theorem stopped_enqueue (packet : Packet) : (m.enqueue packet).stopped = m.stopped := by
  unfold enqueue
  split <;> rfl

theorem stopped_written (c : Characteristic) (value : Bytes) :
    (m.written c value).stopped = m.stopped := by
  unfold written
  split
  · rfl
  · cases c with
    | control => exact stopped_enqueue _
    | data => exact stopped_enqueue _
    | progress => rfl

theorem stopped_reopen : m.reopen.stopped = m.stopped := by
  unfold reopen
  split
  · next hstopped _ _ => exact hstopped.symm ▸ rfl
  · rfl

/-- The radio never resets the device. -/
theorem stopped_take_reset_iff (h : Happening) :
    (m.take h).stopped = some .reset ↔ m.stopped = some .reset := by
  obtain ⟨engine, flash, queue, radio, clock, notificationsFail, stopped, log⟩ := m
  cases stopped with
  | some stop => rfl
  | none =>
      cases radio with
      | advertising =>
          cases h with
          | advertisingFails => exact iff_of_false (fun hreset => by cases hreset) nofun
          | _ => rfl
      | connected subscriptions =>
          cases h with
          | write c value => exact Eq.congr_left (stopped_written c value)
          | disconnect => exact Eq.congr_left stopped_reopen
          | _ => rfl
      | closing => cases h <;> rfl

theorem stopped_foldl_perform_reset_iff (deeds : List Deed) :
    (deeds.foldl perform m).stopped = some .reset ↔ m.stopped = some .reset ∨ .reset ∈ deeds := by
  induction deeds generalizing m with
  | nil => simp
  | cons deed deeds ih =>
      rw [List.foldl_cons, ih, List.mem_cons]
      by_cases hreset : deed = .reset
      · subst hreset
        simp [perform, stop, record]
      · rw [stopped_perform hreset]
        simp [Ne.symm hreset]

/-- An updater that is not interrupted resets the device exactly if the next item is the end of a
connection and the engine wants a reset. -/
theorem stopped_serve_reset_iff (hstopped : m.stopped = none) :
    (m.serve config chip).stopped = some .reset ↔
      m.queue.toList.head? = some .disconnected ∧ m.engine.resetRequested = true := by
  cases hpop : m.queue.pop? with
  | none =>
      have hempty : m.queue.toList = [] := BoundedQueue.pop?_eq_none_iff.mp hpop
      simp [serve, hstopped, hpop, hempty]
  | some popped =>
      obtain ⟨work, queue⟩ := popped
      have hqueue := BoundedQueue.pop?_eq_some_iff.mp hpop
      simp only [serve, hstopped, hpop, handle_eq_foldl]
      rw [stopped_foldl_perform_reset_iff, (kept_undertake _ _).2.2.2, reset_mem_undertake_iff, hqueue]
      simp [record]

end UpdateMode

/-! ### The device is armed -/

/-- A `reset` was accepted among the items taken up. -/
def Armed (config : Config) (chip : NorFlash σ) (flash : σ) (done : List Service) : Prop :=
  ∃ x ∈ ({ flash } : Snapshot Layout.pageSize σ).exchanges config chip (calls done), x.Accepts .reset

/-- The last item taken up was the end of a connection, and the device was armed then. -/
def EndsArmed (config : Config) (chip : NorFlash σ) (flash : σ) (done : List Service) : Prop :=
  ∃ earlier now, done = earlier ++ [⟨.disconnected, now⟩] ∧ Armed config chip flash earlier

variable {flash : σ} {done : List Service}

theorem endsArmed_concat_iff {service : Service} :
    EndsArmed config chip flash (done ++ [service]) ↔
      service.work = .disconnected ∧ Armed config chip flash done := by
  constructor
  · rintro ⟨earlier, now, heq, harmed⟩
    obtain ⟨rfl, hlast⟩ := List.append_inj' heq rfl
    rw [List.singleton_inj.mp hlast]
    exact ⟨rfl, harmed⟩
  · obtain ⟨work, now⟩ := service
    rintro ⟨rfl, harmed⟩
    exact ⟨done, now, rfl, harmed⟩

theorem run_resetRequested_iff_armed :
    (({ flash } : Snapshot Layout.pageSize σ).run config chip (calls done)).engine.resetRequested = true ↔
      Armed config chip flash done := by
  rw [Snapshot.run_resetRequested]
  simp [Armed]

namespace Interleaved

variable {s : Interleaved σ}

/-- The engine wants a reset exactly if the device is armed. -/
theorem Refines.resetRequested_iff (h : Refines config chip flash done s) :
    s.mode.engine.resetRequested = true ↔ Armed config chip flash done :=
  (Eq.congr_left (congrArg (·.engine.resetRequested) h.snapshot)).trans run_resetRequested_iff_armed

/-- What a device does about a reset once it has taken up the items `done`. -/
structure ResetsDuly (config : Config) (chip : NorFlash σ) (flash : σ) (done : List Service)
    (s : Interleaved σ) : Prop where
  /-- An armed device that took up the end of a connection has nothing left to do but to reset. -/
  due : EndsArmed config chip flash done →
    s.pending = [.reset] ∨ s.pending = [] ∧ s.mode.stopped = some .reset
  quiet : ¬EndsArmed config chip flash done → .reset ∉ s.pending ∧ s.mode.stopped ≠ some .reset
  /-- It takes up nothing after that. -/
  last : ∀ earlier later now, done = earlier ++ ⟨.disconnected, now⟩ :: later →
    Armed config chip flash earlier → later = []

theorem resetsDuly_start : ResetsDuly config chip flash [] (start flash) where
  due := by
    rintro ⟨earlier, now, heq, _⟩
    simp at heq
  quiet _ := by simp [start, UpdateMode.record]
  last earlier later now heq := by simp at heq

theorem ResetsDuly.radio {m : UpdateMode σ} (h : ResetsDuly config chip flash done s)
    (hstopped : m.stopped = some .reset ↔ s.mode.stopped = some .reset) :
    ResetsDuly config chip flash done { s with mode := m } where
  due hends := by
    rw [hstopped]
    exact h.due hends
  quiet hends := by
    rw [ne_eq, hstopped]
    exact h.quiet hends
  last := h.last

theorem ResetsDuly.performs {deed : Deed} {deeds : List Deed}
    (h : ResetsDuly config chip flash done s) (hpending : s.pending = deed :: deeds) :
    ResetsDuly config chip flash done ⟨s.mode.perform deed, deeds⟩ where
  due hends := by
    rcases h.due hends with hdue | ⟨hnone, _⟩
    · obtain ⟨rfl, rfl⟩ := List.cons_eq_cons.mp (hpending.symm.trans hdue)
      exact Or.inr ⟨rfl, rfl⟩
    · rw [hpending] at hnone
      cases hnone
  quiet hends := by
    obtain ⟨hmem, hstopped⟩ := h.quiet hends
    rw [hpending, List.mem_cons, not_or] at hmem
    rw [UpdateMode.stopped_perform (Ne.symm hmem.1)]
    exact ⟨hmem.2, hstopped⟩
  last := h.last

/-- An idle updater takes up an item: the device is not due for a reset before, and is afterwards if it
is armed and the item is the end of a connection. -/
theorem ResetsDuly.takes {work : Work} {queue : BoundedQueue Work queueCapacity} {now : UInt64}
    (h : ResetsDuly config chip flash done s) (hrefines : Refines config chip flash done s)
    (hstopped : s.mode.stopped = none) (hpending : s.pending = []) :
    let begun := (UpdateMode.record { s.mode with queue } (.taken work)).undertake config chip now
      work
    ResetsDuly config chip flash (done ++ [⟨work, now⟩]) ⟨begun.2, begun.1⟩ := by
  intro begun
  have hbegun : begun.2.stopped = none := (UpdateMode.kept_undertake now work).2.2.2.trans hstopped
  have hmem : .reset ∈ begun.1 ↔ EndsArmed config chip flash (done ++ [⟨work, now⟩]) := by
    rw [endsArmed_concat_iff, ← hrefines.resetRequested_iff]
    exact UpdateMode.reset_mem_undertake_iff
  have hquiet : ¬EndsArmed config chip flash done := by
    intro hends
    rcases h.due hends with hdue | ⟨_, hreset⟩
    · simp [hpending] at hdue
    · simp [hstopped] at hreset
  refine ⟨fun hends => ?_, fun hends => ⟨hmem.not.mpr hends, by simp [hbegun]⟩, ?_⟩
  · obtain ⟨rfl, harmed⟩ := endsArmed_concat_iff.mp hends
    rw [← hrefines.resetRequested_iff] at harmed
    exact Or.inl (if_pos harmed)
  · intro earlier later now' heq harmed
    rcases cut_concat heq with ⟨_, hnil⟩ | ⟨later', rfl, hdone⟩
    · exact hnil
    · obtain rfl := h.last earlier later' now' hdone harmed
      exact absurd ⟨earlier, now', hdone, harmed⟩ hquiet

theorem ResetsDuly.move (h : ResetsDuly config chip flash done s)
    (hrefines : Refines config chip flash done s) (move : Move) :
    ResetsDuly config chip flash (done ++ s.served move) (s.move config chip move) := by
  cases move with
  | take happening =>
      rw [served, List.append_nil]
      exact h.radio (UpdateMode.stopped_take_reset_iff happening)
  | reopen =>
      rw [served, List.append_nil]
      exact h.radio (Eq.congr_left UpdateMode.stopped_reopen)
  | advance now =>
      rw [Interleaved.move]
      rcases advance_cases config chip s now with
        ⟨_, hserved, hsame⟩ | ⟨deed, deeds, _, hpending, hserved, hnext⟩ |
          ⟨work, queue, hstopped, hpending, _, hserved, hnext⟩
      · rw [hserved, hsame, List.append_nil]
        exact h
      · rw [hserved, hnext, List.append_nil]
        exact h.performs hpending
      · rw [hserved, hnext]
        exact h.takes hrefines hstopped hpending

theorem ResetsDuly.run (h : ResetsDuly config chip flash done s)
    (hrefines : Refines config chip flash done s) (moves : List Move) :
    ResetsDuly config chip flash (done ++ s.services config chip moves)
      (s.run config chip moves) := by
  induction moves generalizing s done with
  | nil => simpa [services, Interleaved.run] using h
  | cons move moves ih =>
      rw [services, ← List.append_assoc]
      exact ih (h.move hrefines move) (hrefines.move move)

theorem resetsDuly_run (moves : List Move) :
    ResetsDuly config chip flash ((start flash).services config chip moves)
      ((start flash).run config chip moves) :=
  resetsDuly_start.run refines_start moves

theorem ResetsDuly.reset_iff (h : ResetsDuly config chip flash done s) :
    s.mode.stopped = some .reset ∨ .reset ∈ s.pending ↔ EndsArmed config chip flash done := by
  constructor
  · intro hreset
    by_contra hends
    obtain ⟨hmem, hstopped⟩ := h.quiet hends
    exact hreset.elim hstopped hmem
  · intro hends
    rcases h.due hends with hdue | ⟨_, hstopped⟩
    · exact Or.inr (by simp [hdue])
    · exact Or.inl hstopped

/-- A device with a reset to do has nothing else to do, and does it next. -/
theorem ResetsDuly.advance_of_mem (h : ResetsDuly config chip flash done s)
    (hmem : .reset ∈ s.pending) :
    s.pending = [.reset] ∧ (s.mode.stopped = none → ∀ now,
      (s.advance config chip now).mode.stopped = some .reset) := by
  rcases h.due (h.reset_iff.mp (Or.inr hmem)) with hdue | ⟨hnone, _⟩
  · refine ⟨hdue, fun hstopped now => ?_⟩
    simp only [advance, hstopped, hdue]
    rfl
  · simp [hnone] at hmem

/-- However radio and updater interleave, the device resets exactly when the updater has taken up the
end of a connection after an accepted `reset`: nothing else is left to do about that item then, and none
is taken up later. So it resets at the first end of a connection that the armed device takes up,
whatever packets came between; the items that arrived before it have been handled. A `reset` is accepted
if it is well formed, reached the engine, which is not halted, and the erase unit of the chip fits. -/
theorem resets_at_first_disconnect_once_armed (config : Config) (chip : NorFlash σ) (flash : σ)
    (moves : List Move) :
    let s := (start flash).run config chip moves
    let services := (start flash).services config chip moves
    let items := admitted ((start flash).arrivals config chip moves)
    (s.mode.stopped = some .reset ∨ .reset ∈ s.pending ↔ EndsArmed config chip flash services) ∧
      (.reset ∈ s.pending → s.pending = [.reset] ∧ (s.mode.stopped = none → ∀ now,
        (s.advance config chip now).mode.stopped = some .reset)) ∧
      (s.mode.stopped = none → s.pending = [] →
        ((s.mode.serve config chip).stopped = some .reset ↔
          s.mode.queue.toList.head? = some .disconnected ∧ Armed config chip flash services)) ∧
      (∀ earlier later now, services = earlier ++ ⟨.disconnected, now⟩ :: later →
        Armed config chip flash earlier →
          later = [] ∧
          items = earlier.map Service.work ++
            .disconnected :: (s.mode.queue.toList ++ s.mode.owed) ∧
          s.acts = sequence config chip { flash } earlier ++ [.takes .disconnected, .resets]) ∧
      (s.mode.engine.resetRequested = true ↔ Armed config chip flash services) ∧
      services.map Service.work <+: items ∧
      ∀ x ∈ handled config chip flash moves, x.Accepts .reset ↔
        x.Asks .reset ∧ x.before.engine.halted = false ∧ chip.eraseSize = Layout.pageSize := by
  intro s services items
  have hrefines : Refines config chip flash services s := refines_run moves
  have hitems : items = services.map Service.work ++ (s.mode.queue.toList ++ s.mode.owed) :=
    admitted_run moves
  have hduly : ResetsDuly config chip flash services s := resetsDuly_run moves
  refine ⟨hduly.reset_iff, hduly.advance_of_mem, ?_, ?_, hrefines.resetRequested_iff, ?_, ?_⟩
  · intro hstopped _
    rw [UpdateMode.stopped_serve_reset_iff hstopped, hrefines.resetRequested_iff]
  · intro earlier later now hcut harmed
    obtain rfl := hduly.last earlier later now hcut harmed
    refine ⟨rfl, ?_, ?_⟩
    · rw [hitems, hcut]
      simp
    · rw [hrefines.acts, hcut, sequence_concat]
      simp only [episode, if_pos (run_resetRequested_iff_armed.mpr harmed)]
  · exact ⟨_, hitems.symm⟩
  · refine Snapshot.exchanges_induction (P := fun _ => True) trivial fun s a _ _ => ⟨?_, trivial⟩
    rw [Snapshot.exchange_before]
    exact Snapshot.exchange_accepts_reset_iff

end Interleaved

end Device

end FirmwareUpdate
