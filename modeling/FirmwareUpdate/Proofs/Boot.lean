import FirmwareUpdate.Boot.Target
import FirmwareUpdate.Config
import FirmwareUpdate.Proofs.Flash.Content
import Mathlib.Tactic.ByContra

/-!
# When an image is started

With no update asked for, the bootloader starts the application exactly if the tag of its record is
the confirmed word. Since the record lies in the application region, events that touch no byte of the
region leave that as it is.
-/

namespace FirmwareUpdate

variable {config : Config} {content content' : FlashContent}

namespace Config

/-- Where the tag of the application's record stands. -/
def tagAddress (config : Config) : UInt32 := config.appBase + BootRecord.tagOffset

/-- The addresses of the application region. -/
def InRegion (config : Config) (address : Nat) : Prop :=
  config.appBase.toNat ≤ address ∧ address < config.appLimit.toNat

/-- The application region has room for a record. -/
def HoldsRecord (config : Config) : Prop :=
  config.appBase.toNat + BootRecord.byteSize ≤ config.appLimit.toNat

instance (config : Config) : Decidable config.HoldsRecord := inferInstanceAs (Decidable (_ ≤ _))

/-- Two contents agree on the application region. -/
def SameRegion (config : Config) (content content' : FlashContent) : Prop :=
  ∀ address, config.InRegion address → content' address = content address

/-- The record that a content holds at the start of the application region. -/
def record? (config : Config) (content : FlashContent) : Option BootRecord :=
  BootRecord.parse? (content.peek config.appBase.toNat BootRecord.byteSize)

/-- The bootloader starts the application if no update is asked for. -/
def Bootable (config : Config) (content : FlashContent) : Prop :=
  ∃ record, BootTarget.select
    (BootRecord.parse? (content.peek config.appBase.toNat BootRecord.byteSize)) false =
      .application record

theorem toNat_tagAddress (h : config.appBase.toNat + BootRecord.byteSize ≤ UInt32.size) :
    config.tagAddress.toNat = config.appBase.toNat + 16 := by
  have hoffset : BootRecord.tagOffset.toNat = 16 := rfl
  simp only [BootRecord.byteSize] at h
  rw [tagAddress, Address.toNat_add_of_lt, hoffset]
  rw [hoffset]
  omega

theorem tagAddress_toNat (h : config.HoldsRecord) :
    config.tagAddress.toNat = config.appBase.toNat + 16 :=
  toNat_tagAddress (Nat.le_trans h (Nat.le_of_lt config.appLimit.toNat_lt))

end Config

namespace FlashContent

/-- The record that flash holds at an address has the tag that stands in its fifth word. -/
theorem exists_parse?_peek (content : FlashContent) (address : Nat) :
    ∃ record, BootRecord.parse? (content.peek address BootRecord.byteSize) = some record ∧
      record.tag = content.word (address + 16) := by
  simp only [peek, BootRecord.byteSize, List.range_succ, List.range_zero, List.nil_append,
    List.map_cons, List.map_nil, List.cons_append]
  exact ⟨_, rfl, by simp [word, peek, List.range_succ, LittleEndian.decode32, Nat.add_assoc]⟩

/-- A content that differs in the tag alone holds the same record but for the tag. -/
theorem exists_parse?_peek_tag {content content' : FlashContent} {address : Nat}
    (h : ∀ x, x < address + 16 ∨ address + 16 + 4 ≤ x → content' x = content x) :
    ∃ record, BootRecord.parse? (content.peek address BootRecord.byteSize) = some record ∧
      BootRecord.parse? (content'.peek address BootRecord.byteSize) =
        some { record with tag := content'.word (address + 16) } := by
  have hfront : content'.peek address 16 = content.peek address 16 :=
    peek_congr fun x _ hx => h x (by omega)
  have hback : content'.peek (address + 20) 16 = content.peek (address + 20) 16 :=
    peek_congr fun x hx _ => h x (by omega)
  have hsplit (content : FlashContent) : content.peek address BootRecord.byteSize =
      content.peek address 16 ++ (content.peek (address + 16) 4 ++ content.peek (address + 20) 16) := by
    rw [BootRecord.byteSize, peek_append address 16 20, peek_append (address + 16) 4 16]
  rw [hsplit, hsplit, hfront, hback]
  simp only [peek, List.range_succ, List.range_zero, List.nil_append, List.map_cons, List.map_nil,
    List.cons_append]
  exact ⟨_, rfl, by simp [word, peek, List.range_succ, LittleEndian.decode32]; rfl⟩

end FlashContent

namespace Config

theorem bootable_iff (h : config.HoldsRecord) :
    config.Bootable content ↔ content.word config.tagAddress.toNat = RecordTag.confirmedWord := by
  obtain ⟨record, hparse, htag⟩ := content.exists_parse?_peek config.appBase.toNat
  rw [Bootable, hparse, tagAddress_toNat h, ← htag, ← RecordTag.ofWord_eq_confirmed_iff]
  simp only [BootTarget.select, BootRecord.kind]
  constructor
  · rintro ⟨record', hselect⟩
    by_contra hkind
    simp [hkind] at hselect
  · intro hkind
    exact ⟨record, by simp [hkind]⟩

/-- Whether the image is started depends on the application region alone. -/
theorem SameRegion.bootable_iff (hrecord : config.HoldsRecord)
    (h : config.SameRegion content content') :
    config.Bootable content' ↔ config.Bootable content := by
  have hword : content'.word config.tagAddress.toNat = content.word config.tagAddress.toNat := by
    apply FlashContent.word_congr
    intro x hstart hstop
    rw [tagAddress_toNat hrecord] at hstart hstop
    simp only [HoldsRecord, BootRecord.byteSize] at hrecord
    exact h x ⟨by omega, by omega⟩
  rw [Config.bootable_iff hrecord, Config.bootable_iff hrecord, hword]

end Config

/-! ### Events on the application region -/

/-- A call that succeeded and had an effect on a byte of the application region. -/
def Event.Touches (config : Config) : Event → Prop
  | .flash (.erase start stop) none =>
    ∃ x, config.InRegion x ∧ start.toNat ≤ x ∧ x < stop.toNat
  | .flash (.write start bytes) none =>
    ∃ x, config.InRegion x ∧ start.toNat ≤ x ∧ x < start.toNat + bytes.length
  | _ => False

theorem FlashContent.after_of_not_touches {event : Event} (h : ¬event.Touches config) :
    config.SameRegion content (content.after event) := by
  intro x hx
  unfold FlashContent.after
  split
  · next start stop =>
      rw [FlashContent.erase, if_neg]
      rintro ⟨hstart, hstop⟩
      exact h ⟨x, hx, hstart, hstop⟩
  · next start bytes =>
      apply FlashContent.program_outside
      by_contra hin
      exact h ⟨x, hx, by omega, by omega⟩
  · rfl

/-- Events that touch no byte of the region leave it as it is. -/
theorem FlashContent.replay_of_not_touches {events : Array Event}
    (h : ∀ event ∈ events, ¬event.Touches config) :
    config.SameRegion content (content.replay events) := by
  rw [FlashContent.replay, ← Array.foldl_toList]
  have hlist : ∀ event ∈ events.toList, ¬event.Touches config := by simpa using h
  generalize events.toList = list at hlist
  induction list generalizing content with
  | nil => exact fun _ _ => rfl
  | cons event events ih =>
      intro x hx
      rw [List.forall_mem_cons] at hlist
      rw [List.foldl_cons, ih hlist.2 x hx]
      exact after_of_not_touches hlist.1 x hx

end FirmwareUpdate
