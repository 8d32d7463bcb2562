import FirmwareUpdate.Proofs.Engine.Refusals

/-!
# Halted engines

The engine is halted exactly by answering that a boot record is unknown or that its units are not the
chip's, and from then on it answers every packet in the same way and does nothing.
-/

namespace FirmwareUpdate

variable {page : Nat} {σ : Type} {config : Config} {chip : NorFlash σ}

theorem UpdateError.isFatal_iff {err : UpdateError} :
    err.isFatal = true ↔
      (∃ tag, err = .bootRecord tag) ∨ ∃ expected actual, err = .eraseUnit expected actual := by
  cases err <;> simp [UpdateError.isFatal]

namespace Engine

open Attempt

variable {now : UInt64} {e : Engine page} {board : Board σ}

theorem handle_sameLatch {packet : Packet} :
    (handle config chip now packet).Yields (e, board) (fun _ st => SameLatch e st)
      fun _ st => SameLatch e st := by
  cases packet with
  | control bytes =>
      refine yields_handle_control (fun _ _ => rfl) fun packet _ => ?_
      exact execute_latch.mono (fun _ _ hst => hst) fun _ _ hst => hst.1
  | data bytes => exact consume_sameFlags.mono (fun _ _ hst => hst.1) fun _ _ hst => hst.1

/-- An accepted packet leaves the latch as it is, and a refused one closes it if the error is fatal. -/
theorem receive_halted {packet : Packet} :
    (receive config chip now packet).Yields (e, board) (fun _ st => st.1.halted = e.halted)
      fun err st => st.1.halted = (e.halted || err.isFatal) := by
  refine yields_receive.mpr ⟨fun hhalted => by simp [hhalted], fun _ _ => ?_, fun _ _ => ?_⟩
  · simp [UpdateError.isFatal]
  · exact handle_sameLatch.mono (fun _ _ hst => hst) fun _ st hst => by rw [haltedBy, hst]

end Engine

/-- The packet was refused with an error that halts. -/
def Exchange.Fatal (x : Exchange page σ) : Prop :=
  (∃ tag, x.answer = .error (.bootRecord tag)) ∨
    ∃ expected actual, x.answer = .error (.eraseUnit expected actual)

theorem Exchange.fatal_iff {x : Exchange page σ} :
    x.Fatal ↔ ∃ err, x.answer = .error err ∧ err.isFatal = true := by
  simp only [Fatal, UpdateError.isFatal_iff]
  constructor
  · rintro (⟨tag, h⟩ | ⟨expected, actual, h⟩)
    · exact ⟨_, h, Or.inl ⟨tag, rfl⟩⟩
    · exact ⟨_, h, Or.inr ⟨expected, actual, rfl⟩⟩
  · rintro ⟨_, h, ⟨tag, rfl⟩ | ⟨expected, actual, rfl⟩⟩
    · exact Or.inl ⟨tag, h⟩
    · exact Or.inr ⟨expected, actual, h⟩

namespace Snapshot

variable {s : Snapshot page σ} {a : Arrival} {as : List Arrival}

/-- The engine is halted after a packet if it was before, or if the answer is fatal. -/
theorem exchange_halted :
    (s.exchange config chip a).after.engine.halted = true ↔
      s.engine.halted = true ∨ (s.exchange config chip a).Fatal := by
  rw [Exchange.fatal_iff]
  apply exchange_of_yields (Q := fun answer e _ => e.halted = true ↔
    s.engine.halted = true ∨ ∃ err, answer = .error err ∧ err.isFatal = true)
  exact Engine.receive_halted.mono (fun _ _ hst => by simp [hst]) fun _ _ hst => by simp [hst]

/-- The engine is halted after a run exactly if it was before or some answer was fatal. -/
theorem run_halted :
    (s.run config chip as).engine.halted = true ↔
      s.engine.halted = true ∨ ∃ x ∈ s.exchanges config chip as, x.Fatal := by
  induction as generalizing s with
  | nil => simp [run, exchanges]
  | cons a as ih =>
      rw [run, ih, exchange_halted]
      simp [exchanges, or_assoc]

/-- What comes of a packet once the engine is halted: an answer, and nothing else. -/
theorem exchange_of_halted (h : s.engine.halted = true) :
    s.exchange config chip a = ⟨a, s, .error .halted, #[], s⟩ :=
  exchange_holds (R := fun x => x = ⟨a, s, .error .halted, #[], s⟩)
    (Engine.yields_receive.mpr ⟨fun _ => rfl, fun hopen => absurd h hopen, fun hopen => absurd h hopen⟩)

theorem exchanges_of_halted (h : s.engine.halted = true) :
    s.exchanges config chip as = as.map fun a => ⟨a, s, .error .halted, #[], s⟩ := by
  induction as with
  | nil => rfl
  | cons a as ih => rw [exchanges, exchange_of_halted h, ih, List.map_cons]

/-- What comes of the first packet if the units of the chip are not the engine's. -/
theorem exchange_of_eraseUnit (hopen : s.engine.halted = false) (hunit : chip.eraseSize ≠ page) :
    s.exchange config chip a =
      ⟨a, s, .error (.eraseUnit page chip.eraseSize), #[],
        { s with engine := { s.engine with halted := true } }⟩ :=
  exchange_holds (R := fun x => x = ⟨a, s, .error (.eraseUnit page chip.eraseSize), #[],
      { s with engine := { s.engine with halted := true } }⟩)
    (Engine.yields_receive.mpr
      ⟨fun hhalted => by simp [hopen] at hhalted, fun _ _ => rfl, fun _ hsame => absurd hsame hunit⟩)

/-- A run on a chip of other units: the first packet is told so, and none does anything. -/
theorem exchanges_of_eraseUnit (hopen : s.engine.halted = false) (hunit : chip.eraseSize ≠ page) :
    (∀ x, (s.exchanges config chip as).head? = some x →
        x.answer = .error (.eraseUnit page chip.eraseSize)) ∧
      ∀ x ∈ s.exchanges config chip as, x.events = #[] ∧ x.after.flash = s.flash := by
  cases as with
  | nil => simp [exchanges]
  | cons a as =>
      rw [exchanges, exchange_of_eraseUnit hopen hunit, exchanges_of_halted rfl]
      simp

/-- The engine is halted exactly once a packet was answered with an unknown boot record or a chip of
other units, whatever else went wrong. From then on every packet is only answered, and all stays as it
is. On a chip of other units that begins with the first packet, so that flash and link are never used. -/
theorem halted_iff_fatal_answer (page : Nat) (config : Config) (chip : NorFlash σ) (flash : σ)
    (past : List Arrival) :
    let start : Snapshot page σ := ⟨{}, flash⟩
    let s := start.run config chip past
    (s.engine.halted = true ↔ ∃ x ∈ start.exchanges config chip past, x.Fatal) ∧
      (s.engine.halted = true → ∀ later,
        s.exchanges config chip later = later.map fun a => ⟨a, s, .error .halted, #[], s⟩) ∧
      (chip.eraseSize ≠ page →
        (∀ x, (start.exchanges config chip past).head? = some x →
            x.answer = .error (.eraseUnit page chip.eraseSize)) ∧
          ∀ x ∈ start.exchanges config chip past, x.events = #[] ∧ x.after.flash = flash) :=
  ⟨run_halted.trans (by simp), fun hhalted _ => exchanges_of_halted hhalted,
    exchanges_of_eraseUnit rfl⟩

end Snapshot

namespace SmallDevice

/-- The small device once a tag was confirmed that is only feigned to be programmed. -/
def misled : Snapshot 16 FlashMemory :=
  (⟨{}, feigning⟩ : Snapshot 16 FlashMemory).run SmallDevice.config
    SmallDevice.chip (check ++ [done])

end SmallDevice

open SmallDevice in
theorem halted_iff_fatal_answer_misled :
    misled.engine.halted = true ∧
      misled.exchanges SmallDevice.config SmallDevice.chip [done] =
        [done].map fun a => ⟨a, misled, .error .halted, #[], misled⟩ := by
  have hhalted : misled.engine.halted = true := by decide +kernel
  obtain ⟨-, hquiet, -⟩ := Snapshot.halted_iff_fatal_answer 16 SmallDevice.config SmallDevice.chip
    feigning (check ++ [done])
  rw [← misled] at hquiet
  exact ⟨hhalted, hquiet hhalted [done]⟩

end FirmwareUpdate
