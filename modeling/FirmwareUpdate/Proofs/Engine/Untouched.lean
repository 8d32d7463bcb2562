import FirmwareUpdate.Proofs.Engine.Confirmed
import FirmwareUpdate.Proofs.Engine.Position

/-!
# What a transfer leaves alone

The buffered unit holds what flash holds, so a unit that is reprogrammed changes flash only where
bytes were received. Unless a flash call fails, a transfer leaves all that lies outside its range
alone, also in the units it reprograms. So a confirmed record stays confirmed until a transfer covers
its tag.
-/

namespace FirmwareUpdate

variable {page : Nat} {σ : Type} {config : Config} {chip : NorFlash σ} {view : NorFlash.View σ}

/-- The tag of the record lies outside a range. -/
def Config.TagOutside (config : Config) (base : UInt32) (length : Nat) : Prop :=
  base.toNat + length ≤ config.tagAddress.toNat ∨ config.tagAddress.toNat + 4 ≤ base.toNat

instance (config : Config) (base : UInt32) (length : Nat) : Decidable (config.TagOutside base length) :=
  inferInstanceAs (Decidable (_ ∨ _))

/-- Outside a range, flash holds what some content says. -/
def Board.HoldsOutside (view : NorFlash.View σ) (base limit : Nat) (content : FlashContent)
    (board : Board σ) : Prop :=
  ∀ x, x < base ∨ limit ≤ x → view.content board.flash x = content x

namespace Assembly

open Attempt

variable {key : Aes256.Key} {a : Assembly page} {board : Board σ} {base limit cursor : Nat}
variable {content : FlashContent}

/-- Committing changes flash only in the range that the pending bytes lie in. -/
theorem commit_outside (honest : chip.Honest view) (hfits : page < UInt32.size)
    (hpositioned : a.Positioned base limit cursor) (hfaithful : Faithful view (a, board))
    (h : board.HoldsOutside view base limit content) :
    (commit key chip).Yields (a, board) (fun _ st => st.2.HoldsOutside view base limit content)
      fun _ st => st.2.Failed ∨ st.2.HoldsOutside view base limit content := by
  obtain ⟨sound, hmirrors⟩ := hfaithful
  rcases a.nothingToCommit_or_pending with hnothing | ⟨u, s, hbuffer, hs⟩
  · exact (yields_commit_nothing hnothing).mpr h
  have hspans := hpositioned.pending u s hbuffer hs
  have hstart := hspans.start
  have hnonempty := hspans.nonempty
  have hpage := hspans.stop_le_page
  have hstop := hspans.stop_le
  rw [yields_commit_pending hbuffer hs]
  cases hdecrypt : Chain.decrypt? key a.vector (u.spanBytes s) with
  | none => exact Or.inr h
  | some decrypted =>
      obtain ⟨plain, vector⟩ := decrypted
      have hplain : s.start + plain.length = s.stop := by
        rw [Chain.length_of_decrypt? hdecrypt, u.length_spanBytes]
        omega
      refine yields_program_honest honest sound hfits (fun board' _ hcontent x hx => ?_)
        fun _ board' _ hwhy => hwhy.imp_right fun ⟨_, hsame⟩ => hsame ▸ h
      -- The whole unit is programmed, but beside the span it holds what flash holds.
      have hlaid := UnitBuffer.lay_settle (hs ▸ (hmirrors u hbuffer).2) hplain hpage
      rw [hcontent]
      refine (congrFun hlaid x).trans ?_
      rw [FlashContent.lay_outside (by omega)]
      exact h x hx

/-- Taking up another unit commits the buffered one, and does no more to flash. -/
theorem seek_outside (honest : chip.Honest view) (hfits : page < UInt32.size)
    (hpositioned : a.Positioned base limit cursor) (hfaithful : Faithful view (a, board))
    (h : board.HoldsOutside view base limit content) {address : UInt32} :
    (seek key chip address).Yields (a, board) (fun _ st => st.2.HoldsOutside view base limit content)
      fun _ st => st.2.Failed ∨ st.2.HoldsOutside view base limit content := by
  refine yields_seek.mpr ⟨fun _ => h, fun _ => ?_⟩
  refine ((commit_outside honest hfits hpositioned hfaithful h).and
    (commit_faithful honest hfits (a, board) hfaithful)).mono (fun _ st hst => ?_) fun _ _ hst => hst.1
  obtain ⟨a', board'⟩ := st
  obtain ⟨houtside, sound, -⟩ := hst
  rw [yields_load]
  refine Board.yields_read honest.truthful sound (fun _ flash _ hcontent _ x hx => ?_)
    fun _ _ _ _ => Or.inl Board.failed_push
  rw [hcontent]
  exact houtside x hx

/-- The cursor is in place, the buffered unit mirrors flash, and flash is as it was outside the range. -/
structure Sparing (view : NorFlash.View σ) (base limit : Nat) (content : FlashContent) (cursor : Nat)
    (st : Assembly page × Board σ) : Prop where
  positioned : st.1.Positioned base limit cursor
  faithful : Faithful view st
  outside : st.2.HoldsOutside view base limit content

end Assembly

namespace Engine

open Attempt

variable {now : UInt64} {e : Engine page} {board : Board σ} {base length : UInt32}
variable {content : FlashContent}

/-- Until a flash call fails, what lies outside the range is left alone all along a transfer. -/
theorem sparing_carries (config : Config) (honest : chip.Honest view) {base limit : Nat}
    (hpos : 0 < page) (hfits : page < UInt32.size) (hlimit : limit < UInt32.size) :
    Carries config chip limit (fun _ _ => True)
      (Assembly.Sparing view base limit content)
      (fun st : Assembly page × Board σ => st.2.HoldsOutside view base limit content)
      fun _ _ st => st.2.Failed ∨ st.2.HoldsOutside view base limit content := by
  have htracks := tracks_carries config (tracks_true chip base limit) hpos hfits hlimit
  constructor
  case rest => exact fun _ _ => trivial
  case rewind =>
    intro cursor address st start h hstart hlow hhigh
    exact { h with positioned := (h.positioned.rewind hlimit hstart hlow hhigh).1 }
  case seek =>
    intro address st h hlt
    refine ((htracks.seek ⟨h.positioned, trivial⟩ hlt).and
      ((Assembly.seek_faithful honest hfits st h.faithful).and
        (Assembly.seek_outside honest hfits h.positioned h.faithful h.outside))).mono ?_
      fun _ _ hst => hst.2.2
    rintro _ st ⟨⟨htracked, hthere⟩, hfaithful, houtside⟩
    exact ⟨⟨htracked.1, hfaithful, houtside⟩, hthere⟩
  case insert =>
    rintro address bytes ⟨a, board⟩ h hthere hbytes hend -
    refine ((Assembly.insert_positioned hpos hfits hlimit h.positioned rfl hthere hbytes hend).and
      (Assembly.insert_faithful _ h.faithful)).mono ?_ fun _ _ hst => hst.1
    rintro taken ⟨a', board'⟩ ⟨⟨rfl, htaken, hle, hpositioned, -⟩, hfaithful⟩
    exact ⟨htaken, hle, hpositioned, hfaithful, h.outside⟩
  case commit =>
    intro st h
    exact Assembly.commit_outside honest hfits h.positioned h.faithful h.outside

/-- Unless a flash call fails, payload changes flash only in the range of the transfer. -/
theorem receive_outside (honest : chip.Honest view) (hpos : 0 < page) (hfits : page < UInt32.size)
    (h : e.Transferring config base length) (hfaithful : Faithful view (e, board)) {bytes : Bytes}
    (hsize : bytes.length < UInt32.size)
    (houtside : board.HoldsOutside view base.toNat (base.toNat + length.toNat) content) :
    (receive config chip now (.data bytes)).Yields (e, board)
      (fun _ st => st.2.HoldsOutside view base.toNat (base.toNat + length.toNat) content)
      fun _ st => st.2.Failed ∨
        st.2.HoldsOutside view base.toNat (base.toNat + length.toNat) content := by
  have hlimit := toNat_limit h.admitted
  refine yields_receive_payload h.activity (fun _ _ => Or.inr houtside) (fun _ => Or.inr houtside)
    fun _ _ _ => yields_receivePayload (fun _ _ => Or.inr houtside) fun packet hpacket => ?_
  split
  · exact houtside
  · exact houtside
  · next hplacement =>
      have hshort := PayloadPacket.length_of_decode hpacket
      have hat : Assembly.Sparing view base.toNat (base + length).toNat content
          e.session.cursor.toNat (e.assembly, board) := by
        rw [hlimit]
        exact ⟨h.positioned, hfaithful, houtside⟩
      rw [← hlimit]
      apply takePayload_carries (sparing_carries config honest hpos hfits (base + length).toNat_lt) hat
        hplacement (by omega) (fun _ _ => trivial)
      case hoverrun => exact fun _ _ => Or.inr hat.outside
      case hmoved => exact fun _ _ _ _ _ hat' => hat'.outside
      case hended => exact fun _ _ _ hended => hended
      case hhalts => exact fun _ _ _ _ hhalts => hhalts

end Engine

namespace Snapshot

open Attempt

variable {s : Snapshot page σ} {a : Arrival} {base length : UInt32}

/-- Unless a flash call fails, payload changes flash only in the range of its transfer. -/
theorem exchange_outside (honest : chip.Honest view) (hpos : 0 < page) (hfits : page < UInt32.size)
    (hpositioned : s.engine.Positioned config)
    (hfaithful : Engine.Faithful view (s.engine, { flash := s.flash })) (hsized : a.packet.Sized)
    (hactivity : s.engine.session.activity = .transfer base length)
    (hdata : ∃ bytes, a.packet = .data bytes)
    (hflash : ¬(s.exchange config chip a).FlashFailed) (x : Nat)
    (hx : x < base.toNat ∨ base.toNat + length.toNat ≤ x) :
    view.content (s.exchange config chip a).after.flash x = view.content s.flash x := by
  obtain ⟨now, packet⟩ := a
  obtain ⟨bytes, rfl⟩ := hdata
  have htransferring := hpositioned.transferring hactivity
  have hsame : Board.HoldsOutside view base.toNat (base.toNat + length.toNat) (view.content s.flash)
      { flash := s.flash } := fun _ _ => rfl
  have houtside : (s.exchange config chip ⟨now, .data bytes⟩).FlashFailed ∨
      Board.HoldsOutside view base.toNat (base.toNat + length.toNat) (view.content s.flash)
        { flash := (s.exchange config chip ⟨now, .data bytes⟩).after.flash } := by
    refine exchange_of_yields (Q := fun _ _ board => board.Failed ∨
      board.HoldsOutside view base.toNat (base.toNat + length.toNat) (view.content s.flash)) ?_
    exact (Engine.receive_outside honest hpos hfits htransferring hfaithful hsized hsame).mono
      (fun _ _ => Or.inr) fun _ _ => id
  exact houtside.resolve_left hflash x hx

/-- The record is confirmed, and a transfer under way leaves its tag out. -/
structure Guarded (config : Config) (view : NorFlash.View σ) (s : Snapshot page σ) : Prop where
  consistent : s.engine.Consistent
  positioned : s.engine.Positioned config
  faithful : Engine.Faithful view (s.engine, { flash := s.flash })
  outside : ∀ base length, s.engine.session.activity = .transfer base length →
    config.TagOutside base length.toNat
  confirmed : (view.content s.flash).word config.tagAddress.toNat = RecordTag.confirmedWord

/-- A packet leaves the record confirmed, unless a flash call fails or it begins a transfer that covers
the tag. -/
theorem Guarded.exchange (h : s.Guarded config view) (honest : chip.Honest view) (hpos : 0 < page)
    (hfits : page < UInt32.size) (hsized : a.packet.Sized)
    (hflash : ¬(s.exchange config chip a).FlashFailed)
    (htag : ∀ base length, (s.exchange config chip a).Begins base length →
      config.TagOutside base length.toNat) :
    (s.exchange config chip a).after.Guarded config view where
  consistent := exchange_consistent h.consistent
  positioned := exchange_positioned hpos hfits h.consistent h.positioned hsized
  faithful := exchange_faithful honest hfits h.faithful
  outside base length hactivity := by
    rcases transfer_or_begins hactivity with hbefore | ⟨count, hbegins, rfl⟩
    · exact h.outside base length hbefore
    · simpa using htag base count hbegins
  confirmed := by
    rw [← h.confirmed]
    by_cases hpayload : (s.exchange config chip a).CarriesPayload
    · rw [Exchange.CarriesPayload, exchange_arrival, exchange_before] at hpayload
      obtain ⟨hdata, base, length, hactivity⟩ := hpayload
      have hclear := h.outside base length hactivity
      refine FlashContent.word_congr fun x hlow hhigh => ?_
      refine exchange_outside honest hpos hfits h.positioned h.faithful hsized hactivity hdata hflash x ?_
      unfold Config.TagOutside at hclear
      omega
    · have hholds := exchange_keeps_of_confirmed honest.truthful h.consistent h.faithful.1 h.confirmed
        hpayload (Board.keptByReads_holds honest.truthful.inert (view.content s.flash))
        ⟨h.faithful.1, rfl⟩
      rw [hholds.2]

theorem Guarded.run (h : s.Guarded config view) (honest : chip.Honest view) (hpos : 0 < page)
    (hfits : page < UInt32.size) {as : List Arrival} (hsized : ∀ a ∈ as, a.packet.Sized)
    (hkept : ∀ x ∈ s.exchanges config chip as, ¬x.FlashFailed ∧
      ∀ base length, x.Begins base length → config.TagOutside base length.toNat) :
    (s.run config chip as).Guarded config view := by
  induction as generalizing s with
  | nil => exact h
  | cons a as ih =>
      rw [exchanges, List.forall_mem_cons] at hkept
      rw [List.forall_mem_cons] at hsized
      obtain ⟨⟨hflash, htag⟩, hlater⟩ := hkept
      exact ih (h.exchange honest hpos hfits hsized.1 hflash htag) hsized.2 hlater

/-- An accepted `done` leaves the record confirmed, with no transfer under way. -/
theorem guarded_of_done (honest : chip.Honest view) (hfits : page < UInt32.size)
    (hs : s.Reachable config chip view) (h : (s.exchange config chip a).Accepts .done) :
    (s.exchange config chip a).after.Guarded config view := by
  have hsettled := settled_of_done honest.confined hs h
  have hfaithful : Engine.Faithful view ((s.exchange config chip a).after.engine,
      { flash := (s.exchange config chip a).after.flash }) :=
    exchange_faithful honest hfits (hs.faithful honest hfits)
  exact
    { consistent := hsettled.consistent
      positioned := Engine.positioned_of_aligned (fun u hu => (hfaithful.2 u hu).1) hsettled.resting
      faithful := hfaithful
      outside := fun base length hactivity => absurd hactivity (hsettled.resting base length)
      confirmed := (exchange_done_accepted honest.confined (hs.sound honest.confined) h).2.2.1 }

/-- The buffered unit never goes stale: apart from what is pending it holds what flash holds, whatever
came before and whatever failed. So once `done` has confirmed the record, the record stays confirmed
until a transfer covers its tag or a flash call fails. -/
theorem buffered_unit_never_stale (config : Config) (chip : NorFlash σ) (view : NorFlash.View σ)
    (honest : chip.Honest view) (hpos : 0 < page) (hfits : page < UInt32.size) (s : Snapshot page σ)
    (hs : s.Reachable config chip view) :
    (∀ u, s.engine.assembly.buffer = some u →
      (∀ i (h : i < page), ¬Span.Covers s.engine.assembly.pending i →
        u.bytes[i] = view.content s.flash (u.base.toNat + i)) ∧
      (s.engine.assembly.pending = none → u.bytes.toList = (view.content s.flash).peek u.base.toNat page)) ∧
    ∀ a rest, (s.exchange config chip a).Accepts .done → (∀ b ∈ rest, b.packet.Sized) →
      (∀ x ∈ (s.exchange config chip a).after.exchanges config chip rest, ¬x.FlashFailed ∧
        ∀ base length, x.Begins base length → config.TagOutside base length.toNat) →
        (view.content ((s.exchange config chip a).after.run config chip rest).flash).word
          config.tagAddress.toNat = RecordTag.confirmedWord := by
  have hmirrors := (hs.faithful honest hfits).2
  refine ⟨fun u hu => ⟨(hmirrors u hu).2, fun hnone => ?_⟩, fun a rest hdone hsized hkept => ?_⟩
  · exact (hnone ▸ (hmirrors u hu).2).toList_eq
  · exact ((guarded_of_done honest hfits hs hdone).run honest hpos hfits hsized hkept).confirmed

end Snapshot

end FirmwareUpdate

/-! ### A transfer beside the tag -/

namespace FirmwareUpdate

namespace SmallDevice

/-- The small device on a chip with units twice as large, once the digest of its tag was checked. -/
def checked : Snapshot 32 FlashMemory :=
  (⟨{}, flash⟩ : Snapshot 32 FlashMemory).run config (FlashMemory.chip 32) check

def confirming : Exchange 32 FlashMemory := checked.exchange config (FlashMemory.chip 32) done

/-- The transfer of a block into the unit of the tag. -/
def beside : List Arrival :=
  [command { command := .data, length := 16, address := 48 },
    data (PayloadPacket.encode { address := 48, payload := List.replicate 16 0 })]

def besides : List (Exchange 32 FlashMemory) :=
  confirming.after.exchanges config (FlashMemory.chip 32) beside

/-- The unit of the tag is reprogrammed, and no call fails. -/
theorem steps_besides :
    confirming.answer.toBool = true ∧
      besides.map (fun x => (x.arrival.packet.command?, x.events.toList.filterMap Event.programmed?,
          decide x.FlashFailed)) =
        [(some { command := .data, length := 16, address := 48 }, [], false),
          (none, [(32, 32)], false)] := by
  decide +kernel

theorem confirming_accepts : confirming.Accepts .done := by
  refine ⟨Exchange.toBool_answer.mp steps_besides.1, { command := .done }, ?_, rfl⟩
  rw [confirming, Snapshot.exchange_arrival]
  decide

theorem besides_kept : ∀ x ∈ besides, ¬x.FlashFailed ∧
    ∀ base length, x.Begins base length → config.TagOutside base length.toNat := by
  intro x hx
  have hstep := List.mem_map_of_mem (f := fun x => (x.arrival.packet.command?,
    x.events.toList.filterMap Event.programmed?, decide x.FlashFailed)) hx
  rw [steps_besides.2] at hstep
  simp only [List.mem_cons, Prod.mk.injEq, List.not_mem_nil, or_false, decide_eq_false_iff_not] at hstep
  rcases hstep with ⟨hcommand, -, hflash⟩ | ⟨hcommand, -, hflash⟩
  · refine ⟨hflash, fun base length hbegins => ?_⟩
    obtain ⟨rfl, rfl⟩ : 16 = length ∧ 48 = base := by simpa [hcommand] using hbegins.2
    decide
  · refine ⟨hflash, fun base length hbegins => ?_⟩
    simp [Exchange.Begins, hcommand] at hbegins

end SmallDevice

open SmallDevice in
theorem buffered_unit_never_stale_beside :
    (FlashMemory.chip 32).Honest FlashMemory.view ∧ FlashMemory.view.Sound flash ∧
      confirming.Accepts .done ∧
      (FlashMemory.view.content
        (confirming.after.run SmallDevice.config (FlashMemory.chip 32) beside).flash).word 32 =
          RecordTag.confirmedWord := by
  have honest : (FlashMemory.chip 32).Honest FlashMemory.view := (FlashMemory.chip_atomic 32).toHonest
  have hsized : ∀ b ∈ beside, b.packet.Sized := by decide
  have h := Snapshot.buffered_unit_never_stale SmallDevice.config (FlashMemory.chip 32) FlashMemory.view
    honest (by decide) (by decide) checked ⟨flash, check, flash_sound, rfl⟩
  exact ⟨honest, flash_sound, confirming_accepts, h.2 done beside confirming_accepts hsized besides_kept⟩

end FirmwareUpdate
