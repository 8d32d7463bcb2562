import FirmwareUpdate.Boot.Record
import FirmwareUpdate.Proofs.Attempt

/-!
# The content of a flash chip

A view assigns a content to the states of a chip. An honest chip reads its content out truthfully
and a call that it reports as done has had its effect on the content; what a failed erasing or
programming call leaves behind is not said. An atomic chip is an honest one whose failed calls
leave the content alone, so that its content is told by the record of its calls.
-/

namespace FirmwareUpdate

variable {σ α : Type}

/-- The byte at each address. -/
abbrev FlashContent := Nat → UInt8

namespace FlashContent

def peek (content : FlashContent) (address length : Nat) : Bytes :=
  (List.range length).map fun i => content (address + i)

/-- The little-endian word at an address. -/
def word (content : FlashContent) (address : Nat) : UInt32 :=
  UInt32.ofNat (LittleEndian.value (content.peek address 4))

def erase (content : FlashContent) (start stop : Nat) : FlashContent :=
  fun x => if start ≤ x ∧ x < stop then 0xff else content x

/-- Programming clears the bits that are clear in the bytes given, and sets none. -/
def program (content : FlashContent) (start : Nat) (bytes : Bytes) : FlashContent :=
  fun x => if h : start ≤ x ∧ x < start + bytes.length then content x &&& bytes[x - start]
    else content x

/-- The content with bytes in place of what stood from an address on. -/
def lay (content : FlashContent) (start : Nat) (bytes : Bytes) : FlashContent :=
  fun x => if h : start ≤ x ∧ x < start + bytes.length then bytes[x - start] else content x

/-- The effect of what was done outside the engine. Only flash calls that succeed have one. -/
def after (content : FlashContent) : Event → FlashContent
  | .flash (.erase start stop) none => content.erase start.toNat stop.toNat
  | .flash (.write address bytes) none => content.program address.toNat bytes
  | _ => content

/-- The content once all events have had their effect, first to last. -/
def replay (content : FlashContent) (events : Array Event) : FlashContent :=
  events.foldl after content

variable {content content' : FlashContent}

@[simp] theorem length_peek (address length : Nat) : (content.peek address length).length = length := by
  simp [peek]

@[simp] theorem getElem_peek {address length i : Nat} (h : i < (content.peek address length).length) :
    (content.peek address length)[i] = content (address + i) := by
  simp [peek]

theorem peek_congr {address length : Nat}
    (h : ∀ x, address ≤ x → x < address + length → content x = content' x) :
    content.peek address length = content'.peek address length := by
  apply List.map_congr_left
  intro i hi
  have hlt := List.mem_range.mp hi
  exact h _ (by omega) (by omega)

theorem word_congr {address : Nat}
    (h : ∀ x, address ≤ x → x < address + 4 → content x = content' x) :
    content.word address = content'.word address := by
  rw [word, word, peek_congr h]

theorem peek_append (address m n : Nat) :
    content.peek address (m + n) = content.peek address m ++ content.peek (address + m) n := by
  simp [peek, List.range_add, Nat.add_assoc]

theorem encode32_word (address : Nat) :
    LittleEndian.encode32 (content.word address) = content.peek address 4 := by
  exact LittleEndian.encode32_decode32 _ _ _ _

theorem program_outside {start x : Nat} {bytes : Bytes} (h : x < start ∨ start + bytes.length ≤ x) :
    content.program start bytes x = content x := by
  rw [program, dif_neg (by omega)]

theorem lay_outside {start x : Nat} {bytes : Bytes} (h : x < start ∨ start + bytes.length ≤ x) :
    content.lay start bytes x = content x := by
  rw [lay, dif_neg (by omega)]

theorem lay_inside {start x : Nat} {bytes : Bytes} (hstart : start ≤ x)
    (hstop : x - start < bytes.length) : content.lay start bytes x = bytes[x - start] := by
  rw [lay, dif_pos (by omega)]

/-- Reading back what was laid. -/
theorem peek_lay {start : Nat} {bytes : Bytes} :
    (content.lay start bytes).peek start bytes.length = bytes := by
  apply List.ext_getElem (by simp)
  intro i _ hi
  rw [getElem_peek, lay_inside (by omega) (by omega)]
  simp

@[simp] theorem lay_nil (start : Nat) : content.lay start [] = content := by
  funext x
  exact lay_outside (by simp only [List.length_nil]; omega)

theorem lay_append (start : Nat) (xs ys : Bytes) :
    content.lay start (xs ++ ys) = (content.lay start xs).lay (start + xs.length) ys := by
  funext x
  simp only [lay, List.length_append]
  by_cases hys : start + xs.length ≤ x ∧ x < start + xs.length + ys.length
  · have hall : start ≤ x ∧ x < start + (xs.length + ys.length) := by omega
    have hsub : x - start - xs.length = x - (start + xs.length) := by omega
    rw [dif_pos hall, dif_pos hys, List.getElem_append_right (by omega)]
    simp only [hsub]
  · rw [dif_neg hys]
    by_cases hxs : start ≤ x ∧ x < start + xs.length
    · have hall : start ≤ x ∧ x < start + (xs.length + ys.length) := by omega
      rw [dif_pos hall, dif_pos hxs, List.getElem_append_left]
    · have hall : ¬(start ≤ x ∧ x < start + (xs.length + ys.length)) := by omega
      rw [dif_neg hall, dif_neg hxs]

/-- Laying more than what was laid before is laying all of it. -/
theorem lay_lay_append (start : Nat) (xs ys : Bytes) :
    (content.lay start xs).lay start (xs ++ ys) = content.lay start (xs ++ ys) := by
  funext x
  by_cases hx : start ≤ x ∧ x - start < (xs ++ ys).length
  · rw [lay_inside hx.1 hx.2, lay_inside hx.1 hx.2]
  · have houtside : x < start ∨ start + (xs ++ ys).length ≤ x := by omega
    rw [lay_outside houtside, lay_outside houtside]
    rw [List.length_append] at houtside
    exact lay_outside (by omega)

/-- Laying the first of what was laid once more changes nothing. -/
theorem lay_append_lay (start : Nat) (xs ys : Bytes) :
    (content.lay start (xs ++ ys)).lay start xs = content.lay start (xs ++ ys) := by
  funext x
  by_cases hx : start ≤ x ∧ x - start < xs.length
  · have hall : x - start < (xs ++ ys).length := by
      rw [List.length_append]
      omega
    rw [lay_inside hx.1 hx.2, lay_inside hx.1 hall, List.getElem_append_left hx.2]
  · exact lay_outside (by omega)

/-- Programming an erased range lays the bytes over it. -/
theorem program_erase {start stop : Nat} {bytes : Bytes} (h : stop = start + bytes.length) :
    (content.erase start stop).program start bytes = content.lay start bytes := by
  subst h
  funext x
  unfold program erase lay
  by_cases hx : start ≤ x ∧ x < start + bytes.length
  · rw [dif_pos hx, dif_pos hx, if_pos hx]
    exact UInt8.neg_one_and
  · rw [dif_neg hx, dif_neg hx, if_neg hx]

@[simp] theorem replay_push (events : Array Event) (event : Event) :
    content.replay (events.push event) = (content.replay events).after event := by
  simp [replay]

/-- The confirmed tag can be programmed over the provisional one. -/
theorem word_program_confirmed {address : Nat} (h : content.word address = RecordTag.provisionalWord) :
    (content.program address (LittleEndian.encode32 RecordTag.confirmedWord)).word address =
      RecordTag.confirmedWord := by
  have hbytes : content.peek address 4 = [0xa7, 0xff, 0xff, 0xff] := by
    rw [← encode32_word, h]
    decide
  simp only [peek, List.range_succ, List.range_zero, List.nil_append, List.map_cons, List.map_nil,
    List.cons_append, List.cons.injEq, and_true] at hbytes
  obtain ⟨h₀, h₁, h₂, h₃⟩ := hbytes
  have hcode : LittleEndian.encode32 RecordTag.confirmedWord = [0xa7, 0xff, 0x65, 0xf7] := by decide
  simp only [word, peek, hcode, List.range_succ, List.range_zero, List.nil_append, List.map_cons,
    List.map_nil, List.cons_append, program, h₀, h₁, h₂, h₃]
  simp
  decide

end FlashContent

namespace NorFlash

/-- A reading of the states of a chip. -/
structure View (σ : Type) where
  content : σ → FlashContent
  /-- The states in which the chip is what it seems to be. -/
  Sound : σ → Prop

/-- Reads change nothing. What they tell is not said. -/
structure Inert (chip : NorFlash σ) (view : View σ) : Prop where
  read_ok : ∀ {address length flash bytes flash'}, view.Sound flash →
    (chip.read address length).run flash = .ok bytes flash' →
      view.Sound flash' ∧ view.content flash' = view.content flash
  read_error : ∀ {address length flash e flash'}, view.Sound flash →
    (chip.read address length).run flash = .error e flash' →
      view.Sound flash' ∧ view.content flash' = view.content flash

/-- Reads change nothing, nor does programming that fails, and programming that is reported as done
reached nothing outside its range. Whether it was done is not said. -/
structure Failsafe (chip : NorFlash σ) (view : View σ) : Prop extends Inert chip view where
  write_ok : ∀ {address bytes flash flash'}, view.Sound flash →
    (chip.write address bytes).run flash = .ok () flash' →
      view.Sound flash' ∧ ∀ x, x < address.toNat ∨ address.toNat + bytes.length ≤ x →
        view.content flash' x = view.content flash x
  write_error : ∀ {address bytes flash e flash'}, view.Sound flash →
    (chip.write address bytes).run flash = .error e flash' →
      view.Sound flash' ∧ view.content flash' = view.content flash

/-- Reads tell what is there and change nothing. -/
structure Truthful (chip : NorFlash σ) (view : View σ) : Prop where
  read_ok : ∀ {address length flash bytes flash'}, view.Sound flash →
    (chip.read address length).run flash = .ok bytes flash' →
      view.Sound flash' ∧ view.content flash' = view.content flash ∧
        bytes.toList = (view.content flash).peek address.toNat length
  read_error : ∀ {address length flash e flash'}, view.Sound flash →
    (chip.read address length).run flash = .error e flash' →
      view.Sound flash' ∧ view.content flash' = view.content flash

/-- Reads are truthful, and calls reported as done were done. -/
structure Honest (chip : NorFlash σ) (view : View σ) : Prop where
  read_ok : ∀ {address length flash bytes flash'}, view.Sound flash →
    (chip.read address length).run flash = .ok bytes flash' →
      view.Sound flash' ∧ view.content flash' = view.content flash ∧
        bytes.toList = (view.content flash).peek address.toNat length
  read_error : ∀ {address length flash e flash'}, view.Sound flash →
    (chip.read address length).run flash = .error e flash' →
      view.Sound flash' ∧ view.content flash' = view.content flash
  erase_ok : ∀ {start stop flash flash'}, view.Sound flash →
    (chip.erase start stop).run flash = .ok () flash' →
      view.Sound flash' ∧
        view.content flash' = (view.content flash).erase start.toNat stop.toNat
  erase_error : ∀ {start stop flash e flash'}, view.Sound flash →
    (chip.erase start stop).run flash = .error e flash' → view.Sound flash'
  write_ok : ∀ {address bytes flash flash'}, view.Sound flash →
    (chip.write address bytes).run flash = .ok () flash' →
      view.Sound flash' ∧ view.content flash' = (view.content flash).program address.toNat bytes
  write_error : ∀ {address bytes flash e flash'}, view.Sound flash →
    (chip.write address bytes).run flash = .error e flash' → view.Sound flash'

/-- Reads are truthful, and programming that is reported as done reached nothing outside its range.
What it did inside, and what any other call did, is not said. -/
structure Confined (chip : NorFlash σ) (view : View σ) : Prop extends Truthful chip view where
  erase_ok : ∀ {start stop flash flash'}, view.Sound flash →
    (chip.erase start stop).run flash = .ok () flash' → view.Sound flash'
  erase_error : ∀ {start stop flash e flash'}, view.Sound flash →
    (chip.erase start stop).run flash = .error e flash' → view.Sound flash'
  write_ok : ∀ {address bytes flash flash'}, view.Sound flash →
    (chip.write address bytes).run flash = .ok () flash' →
      view.Sound flash' ∧ ∀ x, x < address.toNat ∨ address.toNat + bytes.length ≤ x →
        view.content flash' x = view.content flash x
  write_error : ∀ {address bytes flash e flash'}, view.Sound flash →
    (chip.write address bytes).run flash = .error e flash' → view.Sound flash'

theorem Truthful.inert {chip : NorFlash σ} {view : View σ} (truthful : chip.Truthful view) :
    chip.Inert view where
  read_ok sound h := by
    obtain ⟨hsound, hcontent, -⟩ := truthful.read_ok sound h
    exact ⟨hsound, hcontent⟩
  read_error := truthful.read_error

theorem Honest.truthful {chip : NorFlash σ} {view : View σ} (honest : chip.Honest view) :
    chip.Truthful view :=
  ⟨honest.read_ok, honest.read_error⟩

theorem Honest.confined {chip : NorFlash σ} {view : View σ} (honest : chip.Honest view) :
    chip.Confined view where
  toTruthful := honest.truthful
  erase_ok sound h := (honest.erase_ok sound h).1
  erase_error := honest.erase_error
  write_ok {address bytes flash flash'} sound h := by
    obtain ⟨hsound, hcontent⟩ := honest.write_ok sound h
    refine ⟨hsound, fun x hx => ?_⟩
    rw [hcontent, FlashContent.program_outside hx]
  write_error := honest.write_error

/-- Every read of a range succeeds. -/
def ReadsOut (chip : NorFlash σ) (view : View σ) (start stop : Nat) : Prop :=
  ∀ (address : UInt32) (length : Nat) (flash : σ), view.Sound flash →
    start ≤ address.toNat → address.toNat + length ≤ stop →
      ∃ bytes flash', (chip.read address length).run flash = .ok bytes flash'

/-- Calls that fail change nothing. -/
structure Atomic (chip : NorFlash σ) (view : View σ) : Prop extends Honest chip view where
  erase_error_content : ∀ {start stop flash e flash'}, view.Sound flash →
    (chip.erase start stop).run flash = .error e flash' → view.content flash' = view.content flash
  write_error_content : ∀ {address bytes flash e flash'}, view.Sound flash →
    (chip.write address bytes).run flash = .error e flash' → view.content flash' = view.content flash

end NorFlash

end FirmwareUpdate
