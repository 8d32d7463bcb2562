import FirmwareUpdate.Proofs.Assembly
import Mathlib.Tactic.ByContra

/-!
# The buffered unit mirrors flash

Apart from the bytes received and not yet programmed, the buffered unit holds what flash holds. On an
honest chip every operation on the unit under assembly preserves this: a unit is programmed as a whole,
and one whose programming failed is given up.
-/

namespace FirmwareUpdate

variable {page : Nat} {σ : Type} {content : FlashContent}

theorem Address.toNat_unitBase (hfits : page < UInt32.size) (address : UInt32) :
    (unitBase page address).toNat = address.toNat - address.toNat % page := by
  have hpage : (UInt32.ofNat page).toNat = page := UInt32.toNat_ofNat_of_lt' hfits
  have hle : address % UInt32.ofNat page ≤ address := by
    rw [UInt32.le_iff_toNat_le, UInt32.toNat_mod, hpage]
    exact Nat.mod_le _ _
  rw [unitBase, UInt32.toNat_sub_of_le _ _ hle, UInt32.toNat_mod, hpage]

/-- The unit that contains an address is the aligned one around it. -/
theorem Address.unitBase_eq (hfits : page < UInt32.size) {base address : UInt32}
    (haligned : page ∣ base.toNat) (hle : base.toNat ≤ address.toNat)
    (hlt : address.toNat < base.toNat + page) : unitBase page address = base := by
  obtain ⟨k, hk⟩ := haligned
  have hrest : address.toNat = page * k + (address.toNat - base.toNat) := by omega
  have hmod : address.toNat % page = address.toNat - base.toNat := by
    rw [hrest, Nat.mul_add_mod, Nat.mod_eq_of_lt (by omega), ← hrest]
  apply UInt32.toNat_inj.mp
  rw [toNat_unitBase hfits, hmod]
  omega

theorem Address.unitBase_contains (hpos : 0 < page) (hfits : page < UInt32.size) (address : UInt32) :
    (unitBase page address).toNat ≤ address.toNat ∧
      address.toNat < (unitBase page address).toNat + page := by
  have hmod := Nat.mod_lt address.toNat hpos
  have hle := Nat.mod_le address.toNat page
  rw [toNat_unitBase hfits]
  omega

/-- How far an address is from the unit taken up for it. -/
theorem Address.toNat_sub_unitBase (page : Nat) (address : UInt32) :
    unitBase page address ≤ address ∧
      (address - unitBase page address).toNat = address.toNat % (page % UInt32.size) := by
  have hle : address % UInt32.ofNat page ≤ address := by
    rw [UInt32.le_iff_toNat_le, UInt32.toNat_mod]
    exact Nat.mod_le _ _
  have hbase : unitBase page address ≤ address := by
    rw [UInt32.le_iff_toNat_le, unitBase, UInt32.toNat_sub_of_le _ _ hle]
    omega
  refine ⟨hbase, ?_⟩
  have hrest := UInt32.le_iff_toNat_le.mp hle
  rw [UInt32.toNat_sub_of_le _ _ hbase, unitBase, UInt32.toNat_sub_of_le _ _ hle]
  rw [UInt32.toNat_mod, UInt32.toNat_ofNat'] at hrest ⊢
  rw [Nat.sub_sub_self hrest]

namespace Span

/-- The span, if there is one, covers the position. -/
def Covers (span : Option Span) (i : Nat) : Prop := ∃ s, span = some s ∧ s.start ≤ i ∧ i < s.stop

theorem not_covers_none {i : Nat} : ¬Covers none i := fun ⟨_, h, _⟩ => by simp at h

/-- A span that is extended covers what was covered, and what it is extended by. -/
theorem covers_extend {before : Option Span} {s : Span} {i : Nat}
    (h : Covers before i ∨ s.start ≤ i ∧ i < s.stop) : Covers (some (extend before s)) i := by
  refine ⟨_, rfl, ?_⟩
  unfold Covers at h
  cases before with
  | none => simpa [extend] using h
  | some t =>
      simp only [Option.some.injEq, exists_eq_left'] at h
      simp only [extend, hull]
      omega

end Span

namespace UnitBuffer

variable {u : UnitBuffer page}

/-- A unit contains the addresses that it is taken up for. -/
theorem contains_of_base (hpos : 0 < page) {address : UInt32}
    (hbase : u.base = Address.unitBase page address) : u.Contains address := by
  obtain ⟨hle, hoffset⟩ := Address.toNat_sub_unitBase page address
  rw [Contains, hbase, hoffset]
  refine ⟨hle, ?_⟩
  rcases Nat.eq_zero_or_pos (page % UInt32.size) with hzero | hrest
  · have hpage := Nat.le_of_dvd hpos (Nat.dvd_of_mod_eq_zero hzero)
    rw [hzero, Nat.mod_zero]
    exact Nat.lt_of_lt_of_le address.toNat_lt hpage
  · exact Nat.lt_of_lt_of_le (Nat.mod_lt _ hrest) (Nat.mod_le _ _)

/-- The positions that no pending span covers hold what flash holds. -/
def Mirrors (u : UnitBuffer page) (pending : Option Span) (content : FlashContent) : Prop :=
  ∀ i (h : i < page), ¬Span.Covers pending i → u.bytes[i] = content (u.base.toNat + i)

/-- With nothing pending, the unit is what flash holds in its place. -/
theorem Mirrors.toList_eq (h : u.Mirrors none content) :
    u.bytes.toList = content.peek u.base.toNat page := by
  apply List.ext_getElem (by simp)
  intro i hi _
  rw [FlashContent.getElem_peek, Vector.getElem_toList]
  exact h i (by simpa using hi) Span.not_covers_none

theorem Mirrors.of_none (h : u.Mirrors none content) (pending : Option Span) :
    u.Mirrors pending content :=
  fun i hi _ => h i hi Span.not_covers_none

theorem length_spanBytes (u : UnitBuffer page) (s : Span) :
    (u.spanBytes s).length = min (s.stop - s.start) (page - s.start) := by
  simp [spanBytes, Bytes.slice]

theorem room_le (u : UnitBuffer page) (address : UInt32) (count : Nat) :
    u.room address count ≤ count ∧ (address - u.base).toNat + u.room address count ≤
      max page (address - u.base).toNat := by
  unfold room
  omega

@[simp] theorem base_insert (u : UnitBuffer page) (address : UInt32) (bytes : Bytes) :
    (u.insert address bytes).base = u.base := rfl

/-- What stands at a position once bytes have been laid in. -/
theorem insert_getElem {address : UInt32} {bytes : Bytes} {i : Nat} (h : i < page) :
    (u.insert address bytes).bytes[i] =
      if hin : (address - u.base).toNat ≤ i ∧
          i < (address - u.base).toNat + u.room address bytes.length then
        bytes.get ⟨i - (address - u.base).toNat, by
          have := (u.room_le address bytes.length).1
          omega⟩
      else u.bytes[i] := by
  have hroom := (u.room_le address bytes.length).1
  have hlength : (bytes.take (u.room address bytes.length)).length =
      u.room address bytes.length := by
    rw [List.length_take]
    omega
  simp only [insert, Bytes.overlay_getElem, hlength, List.getElem_take]
  rfl

theorem Mirrors.insert {pending : Option Span} (h : u.Mirrors pending content) (address : UInt32)
    (bytes : Bytes) :
    (u.insert address bytes).Mirrors
      (some (Span.extend pending (u.spanAt address bytes.length))) content := by
  intro i hi hpending
  rw [insert_getElem hi]
  split
  · next hin => exact absurd (Span.covers_extend (Or.inr hin)) hpending
  · exact h i hi fun hold => hpending (Span.covers_extend (Or.inl hold))

/-- What stands at a position once the span has been replaced. -/
theorem settle_getElem {s : Span} {bytes : Bytes} {i : Nat} (h : i < page) :
    (u.settle s bytes).bytes[i] =
      if hin : s.start ≤ i ∧ i < s.start + bytes.length then bytes[i - s.start] else u.bytes[i] := by
  simp only [settle, Bytes.overlay_getElem]

/-- Once its bytes are in flash the unit mirrors flash. -/
theorem mirrors_lay : u.Mirrors none (content.lay u.base.toNat u.bytes.toList) := by
  intro i hi _
  have hlength : u.base.toNat + i - u.base.toNat < u.bytes.toList.length := by
    rw [Vector.length_toList]
    omega
  rw [FlashContent.lay_inside (by omega) hlength]
  simp

/-- Programming a unit whose span was replaced changes flash only at the span. -/
theorem lay_settle {s : Span} (h : u.Mirrors (some s) content) {bytes : Bytes}
    (hlength : s.start + bytes.length = s.stop) (hstop : s.stop ≤ page) :
    content.lay u.base.toNat (u.settle s bytes).bytes.toList =
      content.lay (u.base.toNat + s.start) bytes := by
  funext x
  by_cases hunit : u.base.toNat ≤ x ∧ x < u.base.toNat + page
  · obtain ⟨hstart, hend⟩ := hunit
    have hi : x - u.base.toNat < page := by omega
    rw [FlashContent.lay_inside hstart (by rw [Vector.length_toList]; exact hi)]
    rw [Vector.getElem_toList, settle_getElem hi]
    by_cases hspan : s.start ≤ x - u.base.toNat ∧ x - u.base.toNat < s.start + bytes.length
    · rw [dif_pos hspan, FlashContent.lay_inside (by omega) (by omega)]
      simp only [Nat.sub_add_eq]
    · rw [dif_neg hspan, FlashContent.lay_outside (by omega)]
      have hsame := h (x - u.base.toNat) hi ?_
      · rw [hsame]
        congr 1
        omega
      · rintro ⟨t, ht, hlow, hhigh⟩
        obtain rfl : s = t := Option.some.inj ht
        exact hspan ⟨hlow, by omega⟩
  · rw [FlashContent.lay_outside (by rw [Vector.length_toList]; omega),
      FlashContent.lay_outside (by omega)]

end UnitBuffer

/-- Some flash call failed. -/
def Board.Failed (board : Board σ) : Prop :=
  ∃ call e, .flash call (some e) ∈ board.events

/-- Some call that reads flash failed. -/
def Board.ReadFailed (board : Board σ) : Prop :=
  ∃ address length e, .flash (.read address length) (some e) ∈ board.events

theorem Board.failed_push {flash : σ} {events : Array Event} {call : FlashCall} {e : FlashError} :
    Board.Failed ⟨flash, events.push (.flash call (some e))⟩ :=
  ⟨call, e, by simp⟩

theorem Board.not_readFailed_push {board : Board σ} (h : ¬board.ReadFailed) {event : Event}
    (hevent : ∀ address length e, event ≠ .flash (.read address length) (some e)) {flash : σ} :
    ¬Board.ReadFailed ⟨flash, board.events.push event⟩ := by
  rintro ⟨address, length, e, hmem⟩
  rcases Array.mem_push.mp hmem with hmem | heq
  · exact h ⟨address, length, e, hmem⟩
  · exact hevent address length e heq.symm

theorem Board.erase_keeps_not_readFailed (chip : NorFlash σ) (start stop : UInt32) :
    (erase chip start stop).Keeps fun board => ¬board.ReadFailed :=
  fun _ h => yields_call (fun _ _ _ => not_readFailed_push h (by simp))
    fun _ _ _ => not_readFailed_push h (by simp)

theorem Board.write_keeps_not_readFailed (chip : NorFlash σ) (address : UInt32) (bytes : Bytes) :
    (write chip address bytes).Keeps fun board => ¬board.ReadFailed :=
  fun _ h => yields_call (fun _ _ _ => not_readFailed_push h (by simp))
    fun _ _ _ => not_readFailed_push h (by simp)

namespace Assembly

open Attempt

variable {key : Aes256.Key} {chip : NorFlash σ} {view : NorFlash.View σ} {a : Assembly page}
variable {board : Board σ} {post : Unit → Assembly page × Board σ → Prop}
variable {refused : UpdateError → Assembly page × Board σ → Prop}

/-- The buffered unit, if there is one, is a whole unit and mirrors flash. -/
def Mirrors (a : Assembly page) (content : FlashContent) : Prop :=
  ∀ u, a.buffer = some u → page ∣ u.base.toNat ∧ u.Mirrors a.pending content

theorem mirrors_of_buffer_none (h : a.buffer = none) : a.Mirrors content := by
  intro u hbuffer
  simp [h] at hbuffer

theorem mirrors_discard (a : Assembly page) : a.discard.Mirrors content := mirrors_of_buffer_none rfl

theorem mirrors_release (a : Assembly page) : a.release.Mirrors content := mirrors_of_buffer_none rfl

/-- A span that no commit would program can be taken away. -/
theorem Mirrors.settled (h : a.Mirrors content) (hnothing : a.NothingToCommit) :
    a.settled.Mirrors content := by
  intro u hbuffer
  rcases hnothing with hnone | hnone
  · simp [hnone] at hbuffer
  · have hmirrors := h u hbuffer
    rwa [hnone] at hmirrors

/-- A unit that is put into flash is laid over its range. If one is not, a flash call failed, or it ends
beyond the address space and nothing was done. -/
theorem yields_program_honest (honest : chip.Honest view) (sound : view.Sound board.flash)
    (hfits : page < UInt32.size) {u : UnitBuffer page}
    (hok : ∀ board', view.Sound board'.flash →
      view.content board'.flash = (view.content board.flash).lay u.base.toNat u.bytes.toList →
        post () ({ a with buffer := some u }, board'))
    (herror : ∀ e board', view.Sound board'.flash →
      board'.Failed ∨ UInt32.size ≤ u.base.toNat + page ∧ board' = board →
        refused (.flash e) (a.release, board')) :
    (program chip u).Yields (a, board) post refused := by
  have hpage : (UInt32.ofNat page).toNat = page := UInt32.toNat_ofNat_of_lt' hfits
  rw [yields_program]
  split
  · next hadd =>
      refine herror _ board sound (Or.inr ⟨?_, rfl⟩)
      rw [Address.add?_eq_none_iff, hpage] at hadd
      exact hadd
  · next stop hadd =>
      have hstop := Address.add?_eq_some_iff.mp hadd
      rw [hpage] at hstop
      rw [yields_reprogram]
      refine Board.yields_erase honest sound (fun flash hsound hcontent => ?_)
        fun e flash hsound => herror _ _ hsound (Or.inl Board.failed_push)
      refine Board.yields_write honest hsound (fun flash' hsound' hcontent' => ?_)
        fun e flash' hsound' => herror _ _ hsound' (Or.inl Board.failed_push)
      apply hok _ hsound'
      rw [hcontent', hcontent]
      exact FlashContent.program_erase (by rw [Vector.length_toList]; exact hstop.symm)

/-- A unit that is taken up mirrors flash, and flash stays as it is. -/
theorem yields_load_honest (honest : chip.Honest view) (sound : view.Sound board.flash)
    {base : UInt32}
    (hok : ∀ (u : UnitBuffer page) flash, view.Sound flash →
      view.content flash = view.content board.flash → u.base = base →
        u.Mirrors none (view.content board.flash) →
          post ()
            ({ a with buffer := some u },
              ⟨flash, board.events.push (.flash (.read base page) none)⟩))
    (herror : ∀ e flash, view.Sound flash → view.content flash = view.content board.flash →
      refused (.flash e)
        (a.release, ⟨flash, board.events.push (.flash (.read base page) (some e))⟩)) :
    (load chip base).Yields (a, board) post refused := by
  rw [yields_load]
  refine Board.yields_read honest.truthful sound (fun bytes flash hsound hcontent hbytes => ?_)
    herror
  apply hok _ _ hsound hcontent rfl
  intro i hi _
  have hget := congrArg (·[i]?) hbytes
  simpa [FlashContent.peek, hi] using hget

/-! ### What the operations preserve -/

/-- The chip is what it seems to be, and the buffered unit mirrors it. -/
def Faithful (view : NorFlash.View σ) (st : Assembly page × Board σ) : Prop :=
  view.Sound st.2.flash ∧ st.1.Mirrors (view.content st.2.flash)

theorem commit_faithful (honest : chip.Honest view) (hfits : page < UInt32.size) :
    (commit key chip : Attempt (Assembly page × Board σ) Unit).Keeps (Faithful view) := by
  rintro ⟨a, board⟩ ⟨sound, hmirrors⟩
  obtain hnothing | ⟨u, s, hbuffer, hs⟩ := a.nothingToCommit_or_pending
  · exact (yields_commit_nothing hnothing).mpr ⟨sound, hmirrors.settled hnothing⟩
  · rw [yields_commit_pending hbuffer hs]
    split
    · exact ⟨sound, mirrors_discard a⟩
    · refine yields_program_honest honest sound hfits (fun board' hsound hcontent => ?_)
        fun _ _ hsound _ => ⟨hsound, mirrors_release _⟩
      refine ⟨hsound, ?_⟩
      rintro u' ⟨⟩
      rw [hcontent]
      exact ⟨(hmirrors u hbuffer).1, UnitBuffer.mirrors_lay⟩

theorem load_faithful (honest : chip.Honest view) (hfits : page < UInt32.size) {address : UInt32} :
    (load chip (Address.unitBase page address) : Attempt (Assembly page × Board σ) Unit).Keeps
      (Faithful view) := by
  rintro ⟨a, board⟩ ⟨sound, _⟩
  refine yields_load_honest honest sound (fun u flash hsound hcontent hbase hmirrors => ?_)
    fun _ _ hsound _ => ⟨hsound, mirrors_release _⟩
  refine ⟨hsound, ?_⟩
  rintro u' ⟨⟩
  rw [hbase, Address.toNat_unitBase hfits, hcontent]
  exact ⟨Nat.dvd_sub_mod address.toNat, hmirrors.of_none _⟩

theorem seek_faithful (honest : chip.Honest view) (hfits : page < UInt32.size) {address : UInt32} :
    (seek key chip address : Attempt (Assembly page × Board σ) Unit).Keeps (Faithful view) := by
  rintro ⟨a, board⟩ hst
  rw [yields_seek]
  refine ⟨fun _ => hst, fun _ => ?_⟩
  exact (commit_faithful honest hfits _ hst).mono (fun _ st h => load_faithful honest hfits st h)
    fun _ _ h => h

theorem insert_faithful {address : UInt32} {bytes : Bytes} :
    (insert address bytes : Attempt (Assembly page × Board σ) Nat).Keeps (Faithful view) := by
  rintro ⟨a, board⟩ ⟨sound, hmirrors⟩
  refine yields_insert (fun u hbuffer _ => ⟨sound, ?_⟩) ⟨sound, hmirrors⟩
  rintro u' ⟨⟩
  exact ⟨(hmirrors u hbuffer).1, (hmirrors u hbuffer).2.insert address bytes⟩

end Assembly

end FirmwareUpdate
