import FirmwareUpdate.Device.Boots
import FirmwareUpdate.Proofs.Device.Reboot
import FirmwareUpdate.Proofs.Flash.Memory

/-!
# Update requests over many boots

A boot clears the register and overwrites the request before it acts on either, so the next boot finds
only what was put there since.
-/

namespace FirmwareUpdate

namespace UpdateRequest

theorem honoured_iff {powerOn : Bool} {retained : UpdateRequest} :
    honoured powerOn retained = true ↔ powerOn = false ∧ retained = key := by
  simp [honoured]

end UpdateRequest

/-- The application is started from a record with the confirmed word, unless an update was asked for. -/
theorem BootTarget.select_eq_application_iff {record record' : BootRecord} {requested : Bool} :
    select (some record) requested = .application record' ↔
      record = record' ∧ record.tag = RecordTag.confirmedWord ∧ requested = false := by
  rw [← RecordTag.ofWord_eq_confirmed_iff]
  cases requested
  · by_cases hkind : record.kind = .confirmed
    · simp only [BootRecord.kind] at hkind
      simp [select, BootRecord.kind, hkind]
    · simp only [BootRecord.kind] at hkind
      simp [select, BootRecord.kind, hkind]
  · simp [select]

namespace Device

variable {key : Aes256.Key} {state : ResetState} {flash : FlashMemory} {script : List ScriptLine}

namespace ResetState

theorem powerOn_eq_false_iff : state.powerOn = false ↔ state.reason ≠ 0 := by
  simp [powerOn]

/-- A register is cleared by writing back what was read from it. -/
theorem consumed_reason (state : ResetState) : state.consumed.reason = 0 := by
  change state.reason &&& ~~~state.reason = 0
  exact UInt32.and_not_self

end ResetState

/-- A boot stays in update mode, or starts the application from a record with the confirmed word while
no update is asked for. -/
theorem bootTarget_cases (state : ResetState) (flash : FlashMemory) :
    let bytes := flash.peek Layout.appBase.toNat BootRecord.byteSize
    let decision := (FlashMemory.view.content flash).word (Layout.appBase.toNat + 16) =
        RecordTag.confirmedWord ∧
      UpdateRequest.honoured state.powerOn state.retained = false
    ∃ record, BootRecord.parse? bytes = some record ∧
      ((bootTarget state bytes = .application record ∧ decision) ∨
        (bootTarget state bytes = .update ∧ ¬decision)) := by
  intro bytes decision
  obtain ⟨record, hparse, htag⟩ :=
    (FlashMemory.view.content flash).exists_parse?_peek Layout.appBase.toNat
  have htarget : bootTarget state bytes =
      BootTarget.select (some record) (UpdateRequest.honoured state.powerOn state.retained) :=
    congrArg (BootTarget.select · _) hparse
  refine ⟨record, hparse, ?_⟩
  cases hdecided : bootTarget state bytes with
  | application record' =>
      obtain ⟨rfl, hword, hrequest⟩ :=
        BootTarget.select_eq_application_iff.mp (htarget.symm.trans hdecided)
      exact Or.inl ⟨rfl, htag.symm.trans hword, hrequest⟩
  | update =>
      refine Or.inr ⟨rfl, fun ⟨hword, hrequest⟩ => ?_⟩
      have happlication := BootTarget.select_eq_application_iff.mpr
        ⟨rfl, htag.trans hword, hrequest⟩
      rw [← htarget, hdecided] at happlication
      cases happlication

/-! ### One boot -/

/-- A boot uses up reason and request, and writes the register before anything else shows. -/
theorem run_consumes (state : ResetState) (key : Aes256.Key) (flash : FlashMemory)
    (script : List ScriptLine) :
    (run state key flash script).retained = state.consumed.retained ∧
      (run state key flash script).start.head? = some (.resetReason state.reason) := by
  simp only [run, boot]
  split <;> exact ⟨rfl, rfl⟩

theorem run_ending_eq_jump_iff :
    (run state key flash script).ending = .jump ↔
      (FlashMemory.view.content flash).word (Layout.appBase.toNat + 16) = RecordTag.confirmedWord ∧
        UpdateRequest.honoured state.powerOn state.retained = false := by
  simp only [run, boot]
  obtain ⟨record, _, ⟨htarget, hdecision⟩ | ⟨htarget, hdecision⟩⟩ := bootTarget_cases state flash
  · rw [htarget]
    exact iff_of_true rfl hdecision
  · rw [htarget]
    refine iff_of_false ?_ hdecision
    dsimp only
    split <;> simp

/-- What shows of a run begins with what shows of the startup. -/
theorem exists_run_start_eq (state : ResetState) (key : Aes256.Key) (flash : FlashMemory)
    (script : List ScriptLine) :
    ∃ rest, (∀ link stack entry, .jump link stack entry ∉ rest) ∧
      (run state key flash script).start =
        (startup state (flash.peek Layout.appBase.toNat BootRecord.byteSize)).flatMap
          StartupStep.entries ++ rest := by
  simp only [run, boot]
  split
  · exact ⟨[], by simp, (List.append_nil _).symm⟩
  · exact ⟨[.advertise advertisement], by simp, rfl⟩

/-- The application of the record is entered exactly if the record is confirmed and no update is asked
for, and nothing else is. -/
theorem jump_mem_run_start_iff (state : ResetState) (key : Aes256.Key) (flash : FlashMemory)
    (script : List ScriptLine) :
    ∃ record, BootRecord.parse? (flash.peek Layout.appBase.toNat BootRecord.byteSize) = some record ∧
      ∀ link stack entry, .jump link stack entry ∈ (run state key flash script).start ↔
        ((FlashMemory.view.content flash).word (Layout.appBase.toNat + 16) =
            RecordTag.confirmedWord ∧
          UpdateRequest.honoured state.powerOn state.retained = false) ∧
        link = noReturn ∧ stack = record.stackTop ∧ entry = record.resetVector := by
  obtain ⟨rest, hrest, hstart⟩ := exists_run_start_eq state key flash script
  obtain ⟨record, hrecord, hcases⟩ := bootTarget_cases state flash
  refine ⟨record, hrecord, fun link stack entry => ?_⟩
  rw [hstart, List.mem_append, or_iff_left (hrest link stack entry)]
  rcases hcases with ⟨htarget, hdecision⟩ | ⟨htarget, hdecision⟩
  · simp [startup, htarget, StartupStep.entries, jumpEntries, hdecision]
  · simp [startup, htarget, StartupStep.entries, updateEntries, hdecision]

/-- The decision is acted on last, once the register is cleared and the request overwritten. -/
theorem consumed_before_enter (state : ResetState) (bytes : Bytes) :
    ∃ earlier target, startup state bytes = earlier ++ [.enter target] ∧
      (∀ link stack entry, .jump link stack entry ∉ earlier.flatMap StartupStep.entries) ∧
      earlier.foldl ResetState.after state = state.consumed :=
  ⟨[.clearReason state.reason, .scrub], bootTarget state bytes, rfl,
    by simp [StartupStep.entries], rfl⟩

/-! ### Many boots -/

namespace ResetState

/-- Nothing of a request, or of a reset, that a boot has dealt with. -/
structure Spent (state : ResetState) : Prop where
  reason : state.reason = 0
  retained : state.retained ≠ UpdateRequest.key

theorem spent_consumed (state : ResetState) : state.consumed.Spent := by
  constructor
  · exact consumed_reason state
  · intro hkept
    have hrequest := not_honoured_consumed false state
    simp [UpdateRequest.honoured, hkept] at hrequest

/-- After a boot an update is asked for if the request was put there again, and the reset that followed
had a reason. -/
theorem Spent.honoured_next_iff (h : state.Spent) (c : Cycle) :
    UpdateRequest.honoured (state.next c).powerOn (state.next c).retained = true ↔
      c.stored = some UpdateRequest.key ∧ ∃ reasons, c.reset = .warm reasons ∧ reasons ≠ 0 := by
  rw [UpdateRequest.honoured_iff, powerOn_eq_false_iff]
  obtain ⟨stored, reset, _, _⟩ := c
  cases reset with
  | powerOn memory => simp [next, afterReset]
  | warm reasons =>
      cases stored with
      | none => simp [next, afterReset, store, h.retained]
      | some request => simp [next, afterReset, store, h.reason, and_comm]

end ResetState

/-- The cycle brought a request to its boot: it was stored since the last boot, and the reset had a
reason. -/
def Cycle.Requests (c : Cycle) : Prop :=
  c.stored = some UpdateRequest.key ∧ ∃ reasons, c.reset = .warm reasons ∧ reasons ≠ 0

theorem boots_append (key : Aes256.Key) (state : ResetState) (earlier later : List Cycle) :
    boots key state (earlier ++ later) =
      boots key state earlier ++ boots key (earlier.foldl ResetState.left state) later := by
  induction earlier generalizing state with
  | nil => rfl
  | cons c cs ih =>
      simp only [List.cons_append, boots, List.foldl_cons]
      rw [ih]

@[simp] theorem length_boots (key : Aes256.Key) (state : ResetState) (cycles : List Cycle) :
    (boots key state cycles).length = cycles.length := by
  induction cycles generalizing state with
  | nil => rfl
  | cons c cs ih => simp only [boots, List.length_cons, ih]

/-- Every boot runs the device from what it found, and honours nothing without a reason for the
reset. -/
theorem forall₂_boots (key : Aes256.Key) (state : ResetState) (cycles : List Cycle) :
    List.Forall₂ (fun c b => b.run = run b.found key c.flash c.script ∧
        (∀ memory, c.reset = .powerOn memory → b.found.reason = 0) ∧
        (b.found.reason = 0 → ¬b.Honours)) cycles (boots key state cycles) := by
  induction cycles generalizing state with
  | nil => exact .nil
  | cons c cs ih =>
      refine .cons ⟨rfl, ?_, ?_⟩ (ih _)
      · intro memory hreset
        simp [ResetState.next, hreset, ResetState.afterReset]
      · intro hreason hhonours
        have hwarm := (UpdateRequest.honoured_iff.mp hhonours).1
        rw [ResetState.powerOn_eq_false_iff] at hwarm
        exact hwarm hreason

/-- From what a boot leaves, every boot honours exactly a request that its own cycle brought. -/
theorem ResetState.Spent.forall₂_boots (h : state.Spent) (cycles : List Cycle) :
    List.Forall₂ (fun c b => b.Honours ↔ c.Requests) cycles (boots key state cycles) := by
  induction cycles generalizing state with
  | nil => exact .nil
  | cons c cs ih => exact .cons (h.honoured_next_iff c) (ih (spent_consumed _))

/-- From what a boot leaves, no boot honours a request until one is stored. -/
theorem ResetState.Spent.not_honours_of_mem (h : state.Spent) {cycles : List Cycle}
    (hquiet : ∀ c ∈ cycles, c.stored ≠ some UpdateRequest.key) :
    ∀ b ∈ boots key state cycles, ¬b.Honours := by
  induction cycles generalizing state with
  | nil => simp [boots]
  | cons c cs ih =>
      rw [List.forall_mem_cons] at hquiet
      rw [boots, List.forall_mem_cons]
      refine ⟨fun hhonours => ?_, ih (spent_consumed _) hquiet.2⟩
      exact hquiet.1 ((h.honoured_next_iff c).mp hhonours).1

/-- A boot starts the application exactly if the record is confirmed and no update is asked for, which
takes the request and a reason for the reset. It jumps to where the record says, in the last step of the
startup, and both are used up in the steps before. So over any number of boots each one but the first
honours just what its own cycle brought: a request that was stored once is honoured by the boot that
follows or by none, and a boot after power was applied honours nothing. -/
theorem update_request_honoured_once :
    (∀ (state : ResetState) (key : Aes256.Key) (flash : FlashMemory) (script : List ScriptLine),
      let word := (FlashMemory.view.content flash).word (Layout.appBase.toNat + 16)
      let bytes := flash.peek Layout.appBase.toNat BootRecord.byteSize
      let left := (boot state bytes).2
      let starts := word = RecordTag.confirmedWord ∧
        ¬(state.reason ≠ 0 ∧ state.retained = UpdateRequest.key)
      ((run state key flash script).ending = .jump ↔ starts) ∧
      left.reason = 0 ∧ left.retained ≠ UpdateRequest.key ∧
      (run state key flash script).retained = left.retained ∧
      (run state key flash script).start.head? = some (.resetReason state.reason) ∧
      (∃ record, BootRecord.parse? bytes = some record ∧
        ∀ link stack entry, .jump link stack entry ∈ (run state key flash script).start ↔
          starts ∧ link = noReturn ∧ stack = record.stackTop ∧ entry = record.resetVector) ∧
      ∃ earlier target rest, startup state bytes = earlier ++ [.enter target] ∧
        (run state key flash script).start =
          earlier.flatMap StartupStep.entries ++ (StartupStep.enter target).entries ++ rest ∧
        (∀ link stack entry,
          .jump link stack entry ∉ earlier.flatMap StartupStep.entries ++ rest) ∧
        (earlier.foldl ResetState.after state).reason = 0 ∧
        (earlier.foldl ResetState.after state).retained ≠ UpdateRequest.key) ∧
    ∀ (key : Aes256.Key) (state : ResetState) (cycles : List Cycle),
      List.Forall₂ (fun c b => b.run = run b.found key c.flash c.script ∧
        (∀ memory, c.reset = .powerOn memory → b.found.reason = 0) ∧
        (b.found.reason = 0 → ¬b.Honours)) cycles (boots key state cycles) ∧
      List.Forall₂ (fun c b => b.Honours ↔ c.Requests) cycles.tail (boots key state cycles).tail ∧
      ∀ (earlier later : List Cycle) (c : Cycle), cycles = earlier ++ c :: later →
        (∀ d ∈ later, d.stored ≠ some UpdateRequest.key) →
          ∀ b ∈ (boots key state cycles).drop (earlier.length + 1), ¬b.Honours := by
  constructor
  · intro state key flash script word bytes left starts
    obtain ⟨hretained, hhead⟩ := run_consumes state key flash script
    have hspent := state.spent_consumed
    have hstarts : starts ↔ word = RecordTag.confirmedWord ∧
        UpdateRequest.honoured state.powerOn state.retained = false := by
      rw [← Bool.not_eq_true, UpdateRequest.honoured_iff, ResetState.powerOn_eq_false_iff]
    refine ⟨run_ending_eq_jump_iff.trans hstarts.symm, hspent.reason, hspent.retained, hretained,
      hhead, ?_, ?_⟩
    · rw [hstarts]
      exact jump_mem_run_start_iff state key flash script
    · obtain ⟨rest, hrest, hstart⟩ := exists_run_start_eq state key flash script
      obtain ⟨earlier, target, hstartup, hearlier, hconsumed⟩ := consumed_before_enter state bytes
      refine ⟨earlier, target, rest, hstartup, ?_, ?_, ?_⟩
      · rw [hstart, hstartup]
        simp
      · intro link stack entry hmem
        exact (List.mem_append.mp hmem).elim (hearlier link stack entry) (hrest link stack entry)
      · rw [hconsumed]
        exact ⟨hspent.reason, hspent.retained⟩
  · intro key state cycles
    refine ⟨forall₂_boots key state cycles, ?_, ?_⟩
    · cases cycles with
      | nil => exact .nil
      | cons c cs => exact (ResetState.spent_consumed _).forall₂_boots cs
    · rintro earlier later c rfl hquiet b hb
      rw [boots_append, List.drop_append, length_boots, List.drop_eq_nil_of_le (by simp)] at hb
      simp only [boots, Nat.add_sub_cancel_left, List.nil_append, List.drop_succ_cons,
        List.drop_zero] at hb
      exact (ResetState.spent_consumed _).not_honours_of_mem hquiet b hb

end Device

end FirmwareUpdate
