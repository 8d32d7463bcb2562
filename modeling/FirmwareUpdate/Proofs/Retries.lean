import FirmwareUpdate.Proofs.Confirmation
import FirmwareUpdate.Proofs.Flash.Feigning
import Mathlib.Control.Monad.Basic

/-!
# Confirming an image again and again

On a chip that may refuse any call and may feign to program, confirming can be repeated until it
succeeds. The tag goes from provisional to confirmed at most once, nothing else changes, and no success
is reported that the tag does not show.
-/

namespace FirmwareUpdate.Confirmation

open Attempt

variable {σ : Type} {chip : NorFlash σ} {view : NorFlash.View σ} {record : UInt32} {flash : σ}

/-! ### One call -/

/-- What confirming the record whose tag is at `address` can come to on a feigning chip with some
content: the answer, what was done, and the content afterwards. -/
inductive Course (content : FlashContent) (address : UInt32) :
    Except UpdateError Confirmation → Array Event → FlashContent → Prop
  | unread (e : FlashError) :
      Course content address (.error (.flash e)) #[.flash (tagRead address) (some e)] content
  | already (htag : content.word address.toNat = RecordTag.confirmedWord) :
      Course content address (.ok alreadyConfirmed) #[.flash (tagRead address) none] content
  | foreign (hconfirmed : content.word address.toNat ≠ RecordTag.confirmedWord)
      (hprovisional : content.word address.toNat ≠ RecordTag.provisionalWord) :
      Course content address (.error (.bootRecord (content.word address.toNat)))
        #[.flash (tagRead address) none] content
  | unwritten (htag : content.word address.toNat = RecordTag.provisionalWord) (e : FlashError) :
      Course content address (.error (.flash e))
        #[.flash (tagRead address) none, .flash (tagWrite address) (some e)] content
  /-- The tag may be programmed, but cannot be read back. -/
  | unchecked (htag : content.word address.toNat = RecordTag.provisionalWord) (e : FlashError)
      {content' : FlashContent} (hcontent : content' = content ∨
        content' = content.program address.toNat (LittleEndian.encode32 RecordTag.confirmedWord)) :
      Course content address (.error (.flash e))
        #[.flash (tagRead address) none, .flash (tagWrite address) none,
          .flash (tagRead address) (some e)] content'
  /-- Programming was feigned, and the tag shows it. -/
  | exposed (htag : content.word address.toNat = RecordTag.provisionalWord) :
      Course content address (.error (.bootRecord RecordTag.provisionalWord))
        #[.flash (tagRead address) none, .flash (tagWrite address) none,
          .flash (tagRead address) none] content
  | done (htag : content.word address.toNat = RecordTag.provisionalWord) :
      Course content address (.ok confirmed)
        #[.flash (tagRead address) none, .flash (tagWrite address) none,
          .flash (tagRead address) none]
        (content.program address.toNat (LittleEndian.encode32 RecordTag.confirmedWord))

theorem run_course (feigning : chip.Feigning view) (sound : view.Sound flash) (record : UInt32) :
    (run chip record).Yields { flash }
      (fun confirmation board => view.Sound board.flash ∧
        Course (view.content flash) (record + BootRecord.tagOffset) (.ok confirmation) board.events
          (view.content board.flash))
      fun err board => view.Sound board.flash ∧
        Course (view.content flash) (record + BootRecord.tagOffset) (.error err) board.events
          (view.content board.flash) := by
  apply yields_run feigning.toTruthful sound
  · intro e flash' hsound hcontent
    rw [hcontent]
    exact ⟨hsound, .unread e⟩
  · intro htag flash' hsound hcontent
    rw [hcontent]
    exact ⟨hsound, .already htag⟩
  · intro hconfirmed hprovisional flash' hsound hcontent
    rw [hcontent]
    exact ⟨hsound, .foreign hconfirmed hprovisional⟩
  intro htag flash' hsound hcontent
  rw [program, yields_bind]
  refine Board.yields_call (fun _ programmed hrun => ?_) fun e unprogrammed hrun => ?_
  · obtain ⟨hsound', heffect⟩ := feigning.write_ok hsound hrun
    rw [hcontent] at heffect
    rw [yields_bind]
    apply yields_readWord feigning.toTruthful hsound'
    · intro flash'' hsound'' hcontent''
      simp only [yields_bind, yields_refuseIf, yields_pure, hcontent'']
      rcases heffect with hsame | heffect
      · rw [hsame, htag]
        exact ⟨fun _ => ⟨hsound'', .exposed htag⟩, fun hno => absurd hno (by decide)⟩
      · rw [heffect, FlashContent.word_program_confirmed htag]
        exact ⟨fun hno => absurd rfl hno, fun _ => ⟨hsound'', .done htag⟩⟩
    · intro e flash'' hsound'' hcontent''
      exact ⟨hsound'', .unchecked htag e (by rwa [hcontent''])⟩
  · obtain ⟨hsound', hsame⟩ := feigning.write_error hsound hrun
    rw [hsame, hcontent]
    exact ⟨hsound', .unwritten htag e⟩

theorem confirmedWord_ne_provisionalWord : RecordTag.confirmedWord ≠ RecordTag.provisionalWord := by
  decide

/-- Programming the confirmed tag over the provisional one changes the content. -/
theorem program_ne {content : FlashContent} {address : Nat}
    (htag : content.word address = RecordTag.provisionalWord) :
    content.program address (LittleEndian.encode32 RecordTag.confirmedWord) ≠ content := by
  intro hsame
  have hafter := FlashContent.word_program_confirmed htag
  rw [hsame, htag] at hafter
  exact confirmedWord_ne_provisionalWord hafter.symm

namespace Course

variable {content content' : FlashContent} {address : UInt32} {events : Array Event}
variable {answer : Except UpdateError Confirmation}

/-- The content changes only where the provisional tag was programmed over. -/
theorem effect (h : Course content address answer events content') :
    content' = content ∨ .flash (tagWrite address) none ∈ events ∧
      content.word address.toNat = RecordTag.provisionalWord ∧
      content' = content.program address.toNat (LittleEndian.encode32 RecordTag.confirmedWord) := by
  cases h with
  | unread | already | foreign | unwritten | exposed => exact Or.inl rfl
  | unchecked htag e hcontent => exact hcontent.imp_right fun heffect => ⟨by simp, htag, heffect⟩
  | done htag => exact Or.inr ⟨by simp, htag, rfl⟩

/-- A tag that has changed is confirmed. -/
theorem confirmed_of_ne (h : Course content address answer events content') (hne : content' ≠ content) :
    content'.word address.toNat = RecordTag.confirmedWord := by
  rcases h.effect with hsame | ⟨-, htag, heffect⟩
  · exact absurd hsame hne
  · rw [heffect, FlashContent.word_program_confirmed htag]

theorem outside (h : Course content address answer events content') {i : Nat}
    (hi : i < address.toNat ∨ address.toNat + 4 ≤ i) : content' i = content i := by
  rcases h.effect with hsame | ⟨-, -, heffect⟩
  · rw [hsame]
  · rw [heffect]
    exact FlashContent.program_outside hi

theorem first_event (h : Course content address answer events content') :
    ∃ failure, events[0]? = some (.flash (tagRead address) failure) := by
  cases h <;> exact ⟨_, rfl⟩

theorem eq_tagRead_or_eq_tagWrite (h : Course content address answer events content')
    {call : FlashCall} {failure : Option FlashError} (hmem : .flash call failure ∈ events) :
    call = tagRead address ∨ call = tagWrite address := by
  cases h <;> simp at hmem <;> grind

theorem programs_once (h : Course content address answer events content') :
    (events.toList.filterMap Event.programmed?).length ≤ 1 := by
  cases h with
  | unread | already | foreign | unwritten => exact Nat.zero_le 1
  | unchecked | exposed | done => exact Nat.le_refl 1

/-- Nothing is written unless the tag was read and is provisional. -/
theorem provisional_of_write (h : Course content address answer events content') {start : UInt32}
    {bytes : Bytes} {failure : Option FlashError} (hmem : .flash (.write start bytes) failure ∈ events) :
    events[0]? = some (.flash (tagRead address) none) ∧
      content.word address.toNat = RecordTag.provisionalWord := by
  cases h with
  | unread | already | foreign => simp [tagRead] at hmem
  | unwritten htag | unchecked htag | exposed htag | done htag => exact ⟨rfl, htag⟩

theorem confirmed_of_ok {confirmation : Confirmation}
    (h : Course content address (.ok confirmation) events content') :
    content'.word address.toNat = RecordTag.confirmedWord := by
  cases h with
  | already htag => exact htag
  | done htag => exact FlashContent.word_program_confirmed htag

theorem provisional_of_confirmed (h : Course content address (.ok confirmed) events content') :
    content.word address.toNat = RecordTag.provisionalWord := by
  cases h with
  | done htag => exact htag

theorem confirmed_of_already (h : Course content address (.ok alreadyConfirmed) events content') :
    content.word address.toNat = RecordTag.confirmedWord := by
  cases h with
  | already htag => exact htag

/-- A confirmed tag is only looked at. -/
theorem already_of_confirmed (h : Course content address answer events content')
    (htag : content.word address.toNat = RecordTag.confirmedWord) :
    content' = content ∧
      (events[0]? = some (.flash (tagRead address) none) → answer = .ok alreadyConfirmed) := by
  have hother := htag ▸ confirmedWord_ne_provisionalWord
  cases h with
  | unread | already => simp
  | foreign hconfirmed => exact absurd htag hconfirmed
  | unwritten hno | unchecked hno | exposed hno | done hno => exact absurd hno hother

/-- A tag that is neither provisional nor confirmed is told. -/
theorem bootRecord_of_foreign (h : Course content address answer events content')
    (hlooks : events[0]? = some (.flash (tagRead address) none))
    (hconfirmed : content.word address.toNat ≠ RecordTag.confirmedWord)
    (hprovisional : content.word address.toNat ≠ RecordTag.provisionalWord) :
    answer = .error (.bootRecord (content.word address.toNat)) := by
  cases h with
  | unread => simp at hlooks
  | already hno => exact absurd hno hconfirmed
  | foreign => rfl
  | unwritten hno | unchecked hno | exposed hno | done hno => exact absurd hno hprovisional

/-- Programming that was reported and had no effect is no success; read back, it is exposed. -/
theorem exposed_of_feigned (h : Course content address answer events content')
    (hprograms : .flash (tagWrite address) none ∈ events) (hsame : content' = content) :
    (∀ confirmation, answer ≠ .ok confirmation) ∧
      (events[2]? = some (.flash (tagRead address) none) →
        answer = .error (.bootRecord (content'.word address.toNat))) := by
  cases h with
  | unread | already | foreign | unwritten => simp [tagRead, tagWrite] at hprograms
  | unchecked => simp
  | exposed htag => simp [htag]
  | done htag => exact absurd hsame (program_ne htag)

end Course

/-- The tag of a record in some content. -/
def tagIn (content : FlashContent) (record : UInt32) : UInt32 :=
  content.word (record.toNat + 16)

/-- What came of confirming once. -/
structure Call (σ : Type) where
  before : σ
  answer : Except UpdateError Confirmation
  /-- What was done, first to last. -/
  events : Array Event
  after : σ

/-- Confirms the image whose record is at an address. -/
def call (chip : NorFlash σ) (record : UInt32) (flash : σ) : Call σ :=
  match (run chip record).run { flash } with
  | .ok confirmation board => ⟨flash, .ok confirmation, board.events, board.flash⟩
  | .error err board => ⟨flash, .error err, board.events, board.flash⟩

namespace Call

variable {x : Call σ}

/-- The first read of the tag succeeded. -/
def Looks (x : Call σ) (record : UInt32) : Prop :=
  x.events[0]? = some (.flash (tagRead (record + BootRecord.tagOffset)) none)

/-- The tag was read back after it had been programmed. -/
def LooksBack (x : Call σ) (record : UInt32) : Prop :=
  x.events[2]? = some (.flash (tagRead (record + BootRecord.tagOffset)) none)

/-- Bytes were programmed, or an attempt at it failed. -/
def Writes (x : Call σ) : Prop :=
  ∃ start bytes failure, .flash (.write start bytes) failure ∈ x.events

/-- The tag was reported as programmed. -/
def Programs (x : Call σ) (record : UInt32) : Prop :=
  .flash (tagWrite (record + BootRecord.tagOffset)) none ∈ x.events

/-- What was programmed took effect. -/
def Changes (x : Call σ) (view : NorFlash.View σ) : Prop :=
  view.content x.after ≠ view.content x.before

/-- Confirming did what it says of itself, and nothing else. -/
structure Safe (x : Call σ) (view : NorFlash.View σ) (record : UInt32) : Prop where
  outside : ∀ i, i < record.toNat + 16 ∨ record.toNat + 20 ≤ i →
    view.content x.after i = view.content x.before i
  first : ∃ failure,
    x.events[0]? = some (.flash (tagRead (record + BootRecord.tagOffset)) failure)
  calls : ∀ call failure, .flash call failure ∈ x.events →
    call = tagRead (record + BootRecord.tagOffset) ∨ call = tagWrite (record + BootRecord.tagOffset)
  once : (x.events.toList.filterMap Event.programmed?).length ≤ 1
  provisional : x.Writes →
    x.Looks record ∧ tagIn (view.content x.before) record = RecordTag.provisionalWord
  effect : x.Changes view →
    x.Programs record ∧ tagIn (view.content x.after) record = RecordTag.confirmedWord
  confirmed : x.answer = .ok .confirmed →
    tagIn (view.content x.before) record = RecordTag.provisionalWord ∧
      tagIn (view.content x.after) record = RecordTag.confirmedWord
  already : x.answer = .ok .alreadyConfirmed →
    tagIn (view.content x.before) record = RecordTag.confirmedWord ∧
      tagIn (view.content x.after) record = RecordTag.confirmedWord ∧ ¬x.Writes
  foreign : x.Looks record →
    tagIn (view.content x.before) record ≠ RecordTag.confirmedWord →
    tagIn (view.content x.before) record ≠ RecordTag.provisionalWord →
      x.answer = .error (.bootRecord (tagIn (view.content x.before) record)) ∧ ¬x.Writes
  feigned : x.Programs record → ¬x.Changes view →
    (∀ confirmation, x.answer ≠ .ok confirmation) ∧
      (x.LooksBack record →
        x.answer = .error (.bootRecord (tagIn (view.content x.after) record)))

end Call

theorem toNat_tagAddress (hfits : record.toNat + 20 < UInt32.size) :
    (record + BootRecord.tagOffset).toNat = record.toNat + 16 := by
  have hoffset : BootRecord.tagOffset.toNat = 16 := rfl
  rw [Address.toNat_add_of_lt (by omega), hoffset]

theorem call_of_yields {R : Call σ → Prop}
    (h : (run chip record).Yields { flash }
      (fun confirmation board => R ⟨flash, .ok confirmation, board.events, board.flash⟩)
      fun err board => R ⟨flash, .error err, board.events, board.flash⟩) :
    R (call chip record flash) := by
  unfold Yields at h
  unfold call
  split at h <;> simp_all

theorem call_course (feigning : chip.Feigning view) (record : UInt32) (sound : view.Sound flash) :
    view.Sound (call chip record flash).after ∧
      Course (view.content (call chip record flash).before) (record + BootRecord.tagOffset)
        (call chip record flash).answer (call chip record flash).events
        (view.content (call chip record flash).after) :=
  call_of_yields (R := fun x => view.Sound x.after ∧
    Course (view.content x.before) (record + BootRecord.tagOffset) x.answer x.events
      (view.content x.after)) (run_course feigning sound record)

@[simp] theorem call_before : (call chip record flash).before = flash := by
  unfold call
  split <;> rfl

/-- A tag that is not provisional is not written over. -/
theorem Course.not_writes {x : Call σ}
    (h : Course (view.content x.before) (record + BootRecord.tagOffset) x.answer x.events
      (view.content x.after))
    (hother : (view.content x.before).word (record + BootRecord.tagOffset).toNat ≠
      RecordTag.provisionalWord) : ¬x.Writes := by
  rintro ⟨start, bytes, failure, hmem⟩
  exact hother (h.provisional_of_write hmem).2

theorem Course.safe {x : Call σ} (hfits : record.toNat + 20 < UInt32.size)
    (h : Course (view.content x.before) (record + BootRecord.tagOffset) x.answer x.events
      (view.content x.after)) : x.Safe view record where
  outside i hi := h.outside (by rwa [toNat_tagAddress hfits])
  first := h.first_event
  calls _ _ hmem := h.eq_tagRead_or_eq_tagWrite hmem
  once := h.programs_once
  provisional := by
    rintro ⟨start, bytes, failure, hmem⟩
    rw [tagIn, ← toNat_tagAddress hfits]
    exact h.provisional_of_write hmem
  effect hchanges := by
    rw [tagIn, ← toNat_tagAddress hfits]
    refine ⟨?_, h.confirmed_of_ne hchanges⟩
    rcases h.effect with hsame | ⟨hprograms, -⟩
    · exact absurd hsame hchanges
    · exact hprograms
  confirmed hanswer := by
    rw [hanswer] at h
    simp only [tagIn, ← toNat_tagAddress hfits]
    exact ⟨h.provisional_of_confirmed, h.confirmed_of_ok⟩
  already hanswer := by
    have hcourse := h
    rw [hanswer] at h
    simp only [tagIn, ← toNat_tagAddress hfits]
    have hother := h.confirmed_of_already ▸ confirmedWord_ne_provisionalWord
    exact ⟨h.confirmed_of_already, h.confirmed_of_ok, hcourse.not_writes hother⟩
  foreign hlooks hconfirmed hprovisional := by
    simp only [tagIn, ← toNat_tagAddress hfits] at hconfirmed hprovisional ⊢
    exact ⟨h.bootRecord_of_foreign hlooks hconfirmed hprovisional, h.not_writes hprovisional⟩
  feigned hprograms hsame := by
    rw [tagIn, ← toNat_tagAddress hfits]
    exact h.exposed_of_feigned hprograms (Classical.not_not.mp hsame)

/-! ### Call after call -/

/-- Confirms one image several times in a row, and lists the calls in their order. -/
def calls (chip : NorFlash σ) (record : UInt32) : Nat → σ → List (Call σ)
  | 0, _ => []
  | count + 1, flash =>
    call chip record flash :: calls chip record count (call chip record flash).after

/-- What every call preserves holds before each of them. -/
theorem calls_induction {P : σ → Prop} {R : Call σ → Prop}
    (hstep : ∀ flash, P flash → R (call chip record flash) ∧ P (call chip record flash).after)
    (h : P flash) (count : Nat) : ∀ x ∈ calls chip record count flash, R x := by
  induction count generalizing flash with
  | zero => simp [calls]
  | succ count ih =>
      rw [calls, List.forall_mem_cons]
      exact ⟨(hstep flash h).1, ih (hstep flash h).2⟩

/-- What relates a call to all that may follow it relates the calls of a row. -/
theorem calls_pairwise {P : σ → Prop} {R : Call σ → Call σ → Prop}
    (hkept : ∀ flash, P flash → P (call chip record flash).after)
    (hlater : ∀ flash, P flash → ∀ count,
      ∀ y ∈ calls chip record count (call chip record flash).after, R (call chip record flash) y)
    (h : P flash) (count : Nat) : (calls chip record count flash).Pairwise R := by
  induction count generalizing flash with
  | zero => exact List.Pairwise.nil
  | succ count ih =>
      rw [calls, List.pairwise_cons]
      exact ⟨hlater flash h count, ih (hkept flash h)⟩

theorem call_safe (feigning : chip.Feigning view) (sound : view.Sound flash)
    (hfits : record.toNat + 20 < UInt32.size) : (call chip record flash).Safe view record :=
  (call_course feigning record sound).2.safe hfits

/-- Once the tag is confirmed nothing is written any more, and whoever can read the tag is told so. -/
theorem calls_of_confirmed (feigning : chip.Feigning view) (hfits : record.toNat + 20 < UInt32.size)
    (sound : view.Sound flash)
    (htag : tagIn (view.content flash) record = RecordTag.confirmedWord) (count : Nat) :
    ∀ x ∈ calls chip record count flash,
      ¬x.Writes ∧ (x.Looks record → x.answer = .ok .alreadyConfirmed) := by
  refine calls_induction (P := fun flash =>
    view.Sound flash ∧ tagIn (view.content flash) record = RecordTag.confirmedWord)
    (fun flash hflash => ?_) ⟨sound, htag⟩ count
  obtain ⟨hsound, hcourse⟩ := call_course feigning record hflash.1
  have hconfirmed : (view.content (call chip record flash).before).word
      (record + BootRecord.tagOffset).toNat = RecordTag.confirmedWord := by
    rw [call_before, toNat_tagAddress hfits]
    exact hflash.2
  obtain ⟨hsame, hanswer⟩ := hcourse.already_of_confirmed hconfirmed
  rw [call_before] at hsame
  exact ⟨⟨hcourse.not_writes (hconfirmed ▸ confirmedWord_ne_provisionalWord), hanswer⟩, hsound,
    hsame ▸ hflash.2⟩

/-- Confirming can be repeated. On a chip whose calls may fail and that may feign to program, nothing but
the tag ever changes, and it changes once: from provisional to confirmed, after which nothing is written.
Each call writes only over a provisional tag, succeeds only if the tag reads confirmed afterwards, tells
any other tag, and is not deceived by programming that was feigned. Once the tag is confirmed, whatever
the call that programmed it came to, every call that can read it says so. -/
theorem confirming_can_be_repeated (feigning : chip.Feigning view) (record : UInt32)
    (hfits : record.toNat + 20 < UInt32.size) (flash : σ) (sound : view.Sound flash) (count : Nat) :
    (∀ x ∈ calls chip record count flash, x.Safe view record ∧
        ∀ i, i < record.toNat + 16 ∨ record.toNat + 20 ≤ i →
          view.content x.after i = view.content flash i) ∧
      (calls chip record count flash).Pairwise (fun x y => x.Changes view → ¬y.Writes) ∧
      (calls chip record count flash).Pairwise (fun x y =>
        tagIn (view.content x.after) record = RecordTag.confirmedWord →
          y.Looks record → y.answer = .ok .alreadyConfirmed) ∧
      (tagIn (view.content flash) record = RecordTag.confirmedWord →
        ∀ x ∈ calls chip record count flash,
          ¬x.Writes ∧ (x.Looks record → x.answer = .ok .alreadyConfirmed)) := by
  have hkept (flash : σ) (hsound : view.Sound flash) :
      view.Sound (call chip record flash).after :=
    (call_course feigning record hsound).1
  refine ⟨?_, ?_, ?_, fun htag => calls_of_confirmed feigning hfits sound htag count⟩
  · refine calls_induction (P := fun now => view.Sound now ∧
      ∀ i, i < record.toNat + 16 ∨ record.toNat + 20 ≤ i →
        view.content now i = view.content flash i)
      (fun now hnow => ?_) ⟨sound, fun _ _ => rfl⟩ count
    have hsafe : (call chip record now).Safe view record := call_safe feigning hnow.1 hfits
    have houtside i hi := (hsafe.outside i hi).trans (by rw [call_before, hnow.2 i hi])
    exact ⟨⟨hsafe, houtside⟩, hkept now hnow.1, houtside⟩
  · refine calls_pairwise hkept (fun now hsound count y hy hchanges => ?_) sound count
    have htag := ((call_safe feigning hsound hfits).effect hchanges).2
    exact (calls_of_confirmed feigning hfits (hkept now hsound) htag count y hy).1
  · refine calls_pairwise hkept (fun now hsound count y hy htag => ?_) sound count
    exact (calls_of_confirmed feigning hfits (hkept now hsound) htag count y hy).2

end FirmwareUpdate.Confirmation

/-! ### A chip that refuses and feigns -/

namespace FirmwareUpdate

/-- The flash of the small device, but the tag can be read only at the second attempt, and programming it
is feigned at first. -/
def SmallDevice.unruly : FlashMemory :=
  { flash with
    faults :=
      [{ kind := .read, start := 32, length := 4, effect := .fail .other, remaining := some 1 },
        { kind := .write, start := 32, length := 4, effect := .ignore, remaining := some 1 }] }

open SmallDevice Confirmation in
theorem confirming_can_be_repeated_unruly :
    FlashMemory.feigningView.Sound unruly ∧
      (calls SmallDevice.chip 16 4 unruly).map Call.answer =
        [.error (.flash .other), .error (.bootRecord RecordTag.provisionalWord), .ok .confirmed,
          .ok .alreadyConfirmed] ∧
      (∀ x ∈ calls SmallDevice.chip 16 4 unruly, x.Safe FlashMemory.feigningView 16) ∧
      (calls SmallDevice.chip 16 4 unruly).Pairwise fun x y =>
        x.Changes FlashMemory.feigningView → ¬y.Writes := by
  have hsound : FlashMemory.feigningView.Sound unruly := by
    simp [FlashMemory.feigningView, FlashMemory.Genuine, unruly]
  obtain ⟨hsafe, honce, -⟩ := confirming_can_be_repeated (FlashMemory.chip_feigning 16) 16
    (by decide) unruly hsound 4
  exact ⟨hsound, by decide +kernel, fun x hx => (hsafe x hx).1, honce⟩

end FirmwareUpdate
