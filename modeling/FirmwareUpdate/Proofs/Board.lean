import FirmwareUpdate.Proofs.Flash.Content

/-!
# Flash calls on the board

Rules for single flash calls: what they record, and what they do to the content of an honest chip.
Properties that reads preserve, or that all calls preserve, are carried through whole steps by the
modules on the assembly and on the engine. The record of an atomic chip determines its content.
-/

namespace FirmwareUpdate

variable {σ α : Type}

/-- Whether the event is a flash call. -/
def Event.IsCall : Event → Prop
  | .flash _ _ => True
  | _ => False

instance : (event : Event) → Decidable event.IsCall
  | .flash _ _ => inferInstanceAs (Decidable True)
  | .progress _ | .connection _ | .report _ => inferInstanceAs (Decidable False)

/-- What the peer was told, first to last. -/
def Event.told (events : Array Event) : List Event := events.toList.filter fun event => ¬event.IsCall

@[simp] theorem Event.told_empty : told #[] = [] := rfl

@[simp] theorem Event.told_push (events : Array Event) (event : Event) :
    told (events.push event) = told events ++ if event.IsCall then [] else [event] := by
  by_cases h : event.IsCall <;> simp [told, h]

/-- Whether the event is a flash call that failed. -/
def Event.Fails : Event → Prop
  | .flash _ (some _) => True
  | _ => False

instance : (event : Event) → Decidable event.Fails
  | .flash _ (some _) => inferInstanceAs (Decidable True)
  | .flash _ none | .progress _ | .connection _ | .report _ => inferInstanceAs (Decidable False)

/-- Where the event programmed bytes, and how many. -/
def Event.programmed? : Event → Option (UInt32 × Nat)
  | .flash (.write start bytes) none => some (start, bytes.length)
  | _ => none

theorem Event.programmed?_eq_some {event : Event} {start : UInt32} {count : Nat}
    (h : event.programmed? = some (start, count)) :
    ∃ bytes, event = .flash (.write start bytes) none ∧ bytes.length = count := by
  unfold programmed? at h
  split at h
  · cases h
    exact ⟨_, rfl, rfl⟩
  · simp at h

namespace UpdateError

/-- A unit could not be taken up, or the pending bytes could not be programmed. -/
def Interrupts : UpdateError → Prop
  | .flash _ | .unaligned _ _ => True
  | _ => False

/-- Nothing was done for the packet. -/
def OfPacket : UpdateError → Prop
  | .malformed _ | .overrun _ _ | .halted => True
  | _ => False

theorem OfPacket.not_fatal {err : UpdateError} (h : err.OfPacket) : err.isFatal = false := by
  cases err with
  | malformed | overrun | halted => rfl
  | _ => exact False.elim h

theorem OfPacket.not_interrupts {err : UpdateError} (h : err.OfPacket) : ¬err.Interrupts := by
  cases err with
  | malformed | overrun | halted => exact id
  | _ => exact False.elim h

end UpdateError

namespace Board

open Attempt

variable {chip : NorFlash σ} {view : NorFlash.View σ} {board : Board σ} {P : Board σ → Prop}
variable {refused : UpdateError → Board σ → Prop}

/-- A successful and a failed call are recorded alike, but for the failure. -/
theorem yields_call {record : FlashCall} {attempt : EStateM FlashError σ α}
    {post : α → Board σ → Prop}
    (hok : ∀ a flash, attempt.run board.flash = .ok a flash →
      post a ⟨flash, board.events.push (.flash record none)⟩)
    (herror : ∀ e flash, attempt.run board.flash = .error e flash →
      refused (.flash e) ⟨flash, board.events.push (.flash record (some e))⟩) :
    (call record attempt).Yields board post refused := by
  obtain ⟨flash, events⟩ := board
  simp only [Yields, call, EStateM.run] at hok herror ⊢
  cases h : attempt flash with
  | ok a flash' => exact hok a flash' h
  | error e flash' => exact herror e flash' h

theorem yields_read (truthful : chip.Truthful view) (sound : view.Sound board.flash)
    {address : UInt32} {length : Nat} {post : Vector UInt8 length → Board σ → Prop}
    (hok : ∀ bytes flash, view.Sound flash → view.content flash = view.content board.flash →
      bytes.toList = (view.content board.flash).peek address.toNat length →
        post bytes ⟨flash, board.events.push (.flash (.read address length) none)⟩)
    (herror : ∀ e flash, view.Sound flash → view.content flash = view.content board.flash →
      refused (.flash e) ⟨flash, board.events.push (.flash (.read address length) (some e))⟩) :
    (read chip address length).Yields board post refused := by
  apply yields_call
  · intro bytes flash h
    obtain ⟨hsound, hcontent, hbytes⟩ := truthful.read_ok sound h
    exact hok bytes flash hsound hcontent hbytes
  · intro e flash h
    obtain ⟨hsound, hcontent⟩ := truthful.read_error sound h
    exact herror e flash hsound hcontent

variable {post : Unit → Board σ → Prop}

theorem yields_erase (honest : chip.Honest view) (sound : view.Sound board.flash)
    {start stop : UInt32}
    (hok : ∀ flash, view.Sound flash →
      view.content flash = (view.content board.flash).erase start.toNat stop.toNat →
        post () ⟨flash, board.events.push (.flash (.erase start stop) none)⟩)
    (herror : ∀ e flash, view.Sound flash →
      refused (.flash e) ⟨flash, board.events.push (.flash (.erase start stop) (some e))⟩) :
    (erase chip start stop).Yields board post refused := by
  apply yields_call
  · intro _ flash h
    obtain ⟨hsound, hcontent⟩ := honest.erase_ok sound h
    exact hok flash hsound hcontent
  · intro e flash h
    exact herror e flash (honest.erase_error sound h)

theorem yields_write (honest : chip.Honest view) (sound : view.Sound board.flash)
    {address : UInt32} {bytes : Bytes}
    (hok : ∀ flash, view.Sound flash →
      view.content flash = (view.content board.flash).program address.toNat bytes →
        post () ⟨flash, board.events.push (.flash (.write address bytes) none)⟩)
    (herror : ∀ e flash, view.Sound flash →
      refused (.flash e) ⟨flash, board.events.push (.flash (.write address bytes) (some e))⟩) :
    (write chip address bytes).Yields board post refused := by
  apply yields_call
  · intro _ flash h
    obtain ⟨hsound, hcontent⟩ := honest.write_ok sound h
    exact hok flash hsound hcontent
  · intro e flash h
    exact herror e flash (honest.write_error sound h)

/-! ### Properties of boards that calls preserve -/

/-- Reading flash and speaking to the peer preserve the property. -/
structure KeptByReads (chip : NorFlash σ) (P : Board σ → Prop) : Prop where
  read : ∀ address length, (Board.read chip address length).Keeps P
  emit : ∀ event, ¬event.IsCall → (Board.emit event).Keeps P

/-- All that the engine does outside itself preserves the property. -/
structure KeptByCalls (chip : NorFlash σ) (P : Board σ → Prop) : Prop
    extends KeptByReads chip P where
  erase : ∀ start stop, (Board.erase chip start stop).Keeps P
  write : ∀ address bytes, (Board.write chip address bytes).Keeps P

theorem keeps_emit {event : Event} {P : Board σ → Prop}
    (h : ∀ board, P board → P { board with events := board.events.push event }) :
    (emit event : Attempt (Board σ) Unit).Keeps P := h

/-- The flash holds some content and is what it seems to be. -/
def Holds (view : NorFlash.View σ) (content : FlashContent) (board : Board σ) : Prop :=
  view.Sound board.flash ∧ view.content board.flash = content

theorem keptByReads_holds (inert : chip.Inert view) (content : FlashContent) :
    KeptByReads chip (Holds view content) where
  read _ _ _ h := yields_call
    (fun _ _ hrun => ⟨(inert.read_ok h.1 hrun).1, (inert.read_ok h.1 hrun).2.trans h.2⟩)
    fun _ _ hrun => ⟨(inert.read_error h.1 hrun).1, (inert.read_error h.1 hrun).2.trans h.2⟩
  emit _ _ := keeps_emit fun _ h => h

/-- A chip stays what it seems to be. -/
theorem keptByCalls_sound (confined : chip.Confined view) :
    KeptByCalls chip fun board => view.Sound board.flash where
  read _ _ _ h := yields_read confined.toTruthful h (fun _ _ hsound _ _ => hsound)
    fun _ _ hsound _ => hsound
  emit _ _ := keeps_emit fun _ h => h
  erase _ _ _ h := yields_call (fun _ _ hrun => confined.erase_ok h hrun)
    fun _ _ hrun => confined.erase_error h hrun
  write _ _ _ h := yields_call (fun _ _ hrun => (confined.write_ok h hrun).1)
    fun _ _ hrun => confined.write_error h hrun

/-- The flash holds what the record of its calls says. -/
def Replays (view : NorFlash.View σ) (start : FlashContent) (board : Board σ) : Prop :=
  view.Sound board.flash ∧ view.content board.flash = start.replay board.events

theorem keptByCalls_replays (atomic : chip.Atomic view) (start : FlashContent) :
    KeptByCalls chip (Replays view start) where
  read address length board h := by
    apply yields_read atomic.truthful h.1
    · intro _ flash hsound hcontent _
      exact ⟨hsound, by rw [hcontent, h.2, FlashContent.replay_push]; rfl⟩
    · intro _ flash hsound hcontent
      exact ⟨hsound, by rw [hcontent, h.2, FlashContent.replay_push]; rfl⟩
  emit event hcall := keeps_emit fun board h => by
    refine ⟨h.1, ?_⟩
    rw [FlashContent.replay_push, h.2]
    cases event with
    | flash => exact absurd trivial hcall
    | progress => rfl
    | connection => rfl
    | report => rfl
  erase start stop board h := by
    apply yields_call
    · intro _ flash hrun
      obtain ⟨hsound, hcontent⟩ := atomic.erase_ok h.1 hrun
      exact ⟨hsound, by rw [hcontent, h.2, FlashContent.replay_push]; rfl⟩
    · intro e flash hrun
      refine ⟨atomic.erase_error h.1 hrun, ?_⟩
      rw [atomic.erase_error_content h.1 hrun, h.2, FlashContent.replay_push]
      rfl
  write address bytes board h := by
    apply yields_call
    · intro _ flash hrun
      obtain ⟨hsound, hcontent⟩ := atomic.write_ok h.1 hrun
      exact ⟨hsound, by rw [hcontent, h.2, FlashContent.replay_push]; rfl⟩
    · intro e flash hrun
      refine ⟨atomic.write_error h.1 hrun, ?_⟩
      rw [atomic.write_error_content h.1 hrun, h.2, FlashContent.replay_push]
      rfl

end Board

end FirmwareUpdate
