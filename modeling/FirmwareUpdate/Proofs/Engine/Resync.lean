import FirmwareUpdate.Proofs.Engine.Position
import FirmwareUpdate.Proofs.Engine.Transfer
import FirmwareUpdate.Proofs.Flash.Reliable
import FirmwareUpdate.Proofs.Wire
import Mathlib.Algebra.GroupWithZero.Nat
import Mathlib.Data.List.Forall2

/-!
# A transfer can always be finished

On a reliable chip a transfer under way awaits a byte of its range, whatever packets came before. Payload
ahead of the cursor is answered with the cursor; payload from there on, in order and however cut, is taken
packet by packet, and the last packet ends the transfer.
-/

namespace FirmwareUpdate

variable {page : Nat} {σ : Type} {config : Config} {chip : NorFlash σ} {Intact : σ → Prop}

namespace Engine

open Attempt

variable {now : UInt64} {e : Engine page} {board : Board σ}

/-- If a transfer is under way, the engine can take payload for it, and awaits some. -/
def Ready (chip : NorFlash σ) (e : Engine page) : Prop :=
  ∀ base length, e.session.activity = .transfer base length →
    e.session.cursor.toNat < base.toNat + length.toNat ∧ e.halted = false ∧ chip.eraseSize = page

theorem ready_of_activity (h : ∀ base length, e.session.activity ≠ .transfer base length) :
    e.Ready chip :=
  fun base length hactivity => absurd hactivity (h base length)

theorem execute_ready (hunit : chip.eraseSize = page) (hhalted : e.halted = false)
    (h : e.Ready chip) {packet : ControlPacket} :
    (execute config chip now packet).Yields (e, board) (fun _ st => st.1.Ready chip)
      fun err st => (st.1.haltedBy err).Ready chip := by
  apply yields_execute fun err hfatal => by rwa [haltedBy_of_not_fatal hfatal]
  cases packet.command with
  | restart => exact ready_of_activity (by simp)
  | data =>
      intro hidle hnonempty _ _
      refine yields_of_forall (fun _ st => ?_) fun err st => ready_of_activity (by simp [haltedBy, hidle])
      rintro base length ⟨⟩
      have hne : packet.length.toUInt32.toNat ≠ 0 := fun hzero =>
        hnonempty (UInt32.toNat_inj.mp hzero)
      refine ⟨?_, hhalted, hunit⟩
      simp only [Session.beginTransfer]
      omega
  | vector => exact fun _ => ready_of_activity (by simp)
  | digest => exact fun _ => ready_of_activity (by simp)
  | done =>
      intro hidle _
      exact yields_of_forall (fun _ _ => ready_of_activity (by simp [hidle]))
        fun _ _ => ready_of_activity (by simp [haltedBy, hidle])
  | reset => exact h
  | ping => exact h

variable {base length : UInt32}

/-- On a reliable chip no call of a transfer is refused. -/
theorem Transferring.tracks
    (reliable : chip.Reliable page config.appBase.toNat config.appLimit.toNat Intact)
    (hpage : page % Block.size = 0) (h : e.Transferring config base length)
    (Quiet : Array Event → Prop)
    (hquiet : ∀ events call, Quiet events → Quiet (events.push (.flash call none))) :
    Board.Tracks chip page base.toNat (base.toNat + length.toNat)
      (fun _ board => Intact board.flash ∧ Quiet board.events) (fun _ _ _ _ => False) := by
  obtain ⟨hbase, hlength⟩ := h.whole
  refine reliable.tracks hpage (UInt32.le_iff_toNat_le.mp h.admitted.1) h.admitted.2 hbase ?_ hquiet
  simp only [Block.size] at hbase hlength ⊢
  omega

theorem consume_ready
    (reliable : chip.Reliable page config.appBase.toNat config.appLimit.toNat Intact)
    (hpage : page % Block.size = 0) (hpos : 0 < page) (hfits : page < UInt32.size)
    (hintact : Intact board.flash) (hpositioned : e.Positioned config) (h : e.Ready chip)
    {bytes : Bytes} (hsize : bytes.length < UInt32.size) :
    (consume config chip now bytes).Yields (e, board) (fun _ st => st.1.Ready chip)
      fun err st => (st.1.haltedBy err).Ready chip := by
  refine yields_consume.mpr ⟨fun _ => ?_, fun _ => ?_⟩
  · rw [haltedBy_of_not_fatal rfl]
    cases hactivity : e.session.activity with
    | transfer base length =>
        rintro _ _ ⟨⟩
        exact h base length hactivity
    | idle | chainVector | digest => exact ready_of_activity (by simp [dropExpected])
  · split
    · rw [haltedBy_of_not_fatal rfl]
      exact h
    · exact yields_receiveVector (fun _ => ready_of_activity (by simp [haltedBy]))
        fun _ _ => ready_of_activity (by simp)
    · exact yields_receiveDigest (fun _ => ready_of_activity (by simp [haltedBy]))
        fun _ _ => yields_checkDigest.mpr (yields_of_forall
          (fun _ _ => ⟨fun _ => ready_of_activity (by simp),
            fun _ => ready_of_activity (by simp [haltedBy])⟩)
          fun _ _ => ready_of_activity (by simp [haltedBy]))
    · next base length hactivity =>
        have htransferring := hpositioned.transferring hactivity
        obtain ⟨hshort, hhalted, hunit⟩ := h base length hactivity
        have htracks := htransferring.tracks reliable hpage (fun _ => True) fun _ _ _ => trivial
        refine (receivePayload_tracks htracks (fun _ _ _ _ hP => hP) hpos hfits
          ⟨htransferring, hintact, trivial⟩ hsize).mono (fun _ st hst => ?_) fun err st hst => ?_
        · rcases hst with ⟨⟨htransferring', _⟩, hlatch, hcontinues⟩ | ⟨hidle, _⟩
          · intro base' length' hactivity'
            obtain ⟨rfl, rfl⟩ :=
              Activity.transfer.inj (htransferring'.activity.symm.trans hactivity')
            exact ⟨hcontinues hshort, hlatch.trans hhalted, hunit⟩
          · exact ready_of_activity (by simp [hidle])
        · rcases hst with ⟨hpacket, rfl⟩ | ⟨_, _, _, hfalse⟩
          · rw [haltedBy_of_not_fatal hpacket.not_fatal]
            exact h
          · exact hfalse.elim

theorem receive_ready
    (reliable : chip.Reliable page config.appBase.toNat config.appLimit.toNat Intact)
    (hpage : page % Block.size = 0) (hpos : 0 < page) (hfits : page < UInt32.size)
    (hintact : Intact board.flash) (hpositioned : e.Positioned config) (h : e.Ready chip)
    {packet : Packet} (hsized : packet.Sized) :
    (receive config chip now packet).Yields (e, board) (fun _ st => st.1.Ready chip)
      fun _ st => st.1.Ready chip := by
  refine yields_receive.mpr ⟨fun _ => h, fun _ hother base length hactivity => ?_,
    fun hrunning hunit => ?_⟩
  · exact absurd (h base length hactivity).2.2 hother
  · cases packet with
    | control bytes =>
        refine yields_handle_control (fun _ _ => ?_) fun packet _ => ?_
        · rw [haltedBy_of_not_fatal rfl]
          exact h
        · exact execute_ready hunit (Bool.eq_false_iff.mpr hrunning) h
    | data bytes => exact consume_ready reliable hpage hpos hfits hintact hpositioned h hsized

end Engine

/-! ### Payload in order -/

/-- The packets that carry pieces one after another from an address on, each with the clock at its
arrival. -/
def inOrder (address : UInt32) : List (UInt64 × Bytes) → List Arrival
  | [] => []
  | (now, bytes) :: pieces =>
    ⟨now, .data (PayloadPacket.encode { address, payload := bytes })⟩ ::
      inOrder (address + UInt32.ofNat bytes.length) pieces

namespace Exchange

/-- The packet was accepted, and moved the cursor by a number of bytes. -/
def Advances (x : Exchange page σ) (count : Nat) : Prop :=
  x.answer = .ok () ∧
    x.after.engine.session.cursor.toNat = x.before.engine.session.cursor.toNat + count

/-- The engine is idle again, and the one thing the peer was told is that the whole transfer of a
length is complete. -/
def Completes (x : Exchange page σ) (length : UInt32) : Prop :=
  x.after.engine.session.activity = .idle ∧
    ∃ (calls : Array Event) (figures : Throughput),
      x.events = calls.push (.report figures) ∧ (∀ event ∈ calls, event.IsCall) ∧
        figures.expected = length ∧ figures.progress = length

end Exchange

namespace Snapshot

variable {s : Snapshot page σ} {base length : UInt32}

/-- A transfer is under way that can be finished: its cursor is short of its end, and neither the engine
nor the chip refuses a byte. -/
structure Receiving (config : Config) (chip : NorFlash σ) (Intact : σ → Prop) (base length : UInt32)
    (s : Snapshot page σ) : Prop where
  transferring : s.engine.Transferring config base length
  short : s.engine.session.cursor.toNat < base.toNat + length.toNat
  running : s.engine.halted = false
  unit : chip.eraseSize = page
  intact : Intact s.flash

theorem run_receiving
    (reliable : chip.Reliable page config.appBase.toNat config.appLimit.toNat Intact)
    (hpage : page % Block.size = 0) (hpos : 0 < page) (hfits : page < UInt32.size) {flash : σ}
    (hintact : Intact flash) {past : List Arrival} (hsized : ∀ a ∈ past, a.packet.Sized)
    (hactivity : ((⟨{}, flash⟩ : Snapshot page σ).run config chip past).engine.session.activity =
      .transfer base length) :
    ((⟨{}, flash⟩ : Snapshot page σ).run config chip past).Receiving config chip Intact base
      length := by
  have hrun : let s := (⟨{}, flash⟩ : Snapshot page σ).run config chip past
      s.engine.Consistent ∧ s.engine.Positioned config ∧ Intact s.flash ∧ s.engine.Ready chip := by
    refine run_induction
      (P := fun s => s.engine.Consistent ∧ s.engine.Positioned config ∧ Intact s.flash ∧
        s.engine.Ready chip)
      ⟨Engine.consistent_fresh, Engine.positioned_fresh, hintact, Engine.ready_of_activity (by simp)⟩
      fun s a ha hs => ?_
    obtain ⟨hconsistent, hpositioned, hintact, hready⟩ := hs
    refine ⟨exchange_consistent hconsistent,
      exchange_positioned hpos hfits hconsistent hpositioned (hsized a ha), ?_, ?_⟩
    · exact exchange_of_yields (Q := fun _ _ board => Intact board.flash)
        (Engine.receive_keeps reliable.kept a.packet (s.engine, { flash := s.flash }) hintact)
    · exact exchange_of_yields (Q := fun _ e _ => e.Ready chip)
        (Engine.receive_ready reliable hpage hpos hfits hintact hpositioned hready (hsized a ha))
  obtain ⟨_, hpositioned, hintact, hready⟩ := hrun
  obtain ⟨hshort, hrunning, hunit⟩ := hready base length hactivity
  exact ⟨hpositioned.transferring hactivity, hshort, hrunning, hunit, hintact⟩

/-- Payload ahead of the cursor is answered with the cursor, and changes nothing. -/
theorem Receiving.exchange_ahead (h : s.Receiving config chip Intact base length) (now : UInt64)
    {bytes : Bytes} {packet : PayloadPacket} (hmax : bytes.length ≤ config.maxPacket)
    (hdecode : PayloadPacket.decode bytes = .ok packet)
    (hahead : s.engine.session.cursor < packet.address) :
    let x := s.exchange config chip ⟨now, .data bytes⟩
    x.answer = .ok () ∧ x.events = #[.progress (.resync s.engine.session.cursor)] ∧ x.after = s := by
  refine exchange_of_taken (a := ⟨now, .data bytes⟩)
    (Q := fun st => st.2.events = #[.progress (.resync s.engine.session.cursor)] ∧
      (⟨st.1, st.2.flash⟩ : Snapshot page σ) = s) ?_
  refine Engine.yields_receive.mpr ⟨fun hhalted => ?_, fun _ hother => absurd h.unit hother,
    fun _ _ => Engine.yields_consume.mpr ⟨fun hlong => absurd hmax (by omega), fun _ => ?_⟩⟩
  · simp [h.running] at hhalted
  · rw [h.transferring.activity]
    refine Engine.yields_receivePayload (fun error herror => ?_) fun packet' hpacket => ?_
    · rw [hdecode] at herror
      cases herror
    · obtain rfl : packet = packet' := Except.ok.inj (hdecode.symm.trans hpacket)
      rw [Engine.placement, if_pos hahead]
      exact ⟨rfl, rfl⟩

/-- Payload at the cursor is taken. It ends the transfer if it reaches the end of its range, and
otherwise leaves it under way. -/
theorem Receiving.receive_next
    (reliable : chip.Reliable page config.appBase.toNat config.appLimit.toNat Intact)
    (hpage : page % Block.size = 0) (hpos : 0 < page) (hfits : page < UInt32.size)
    (h : s.Receiving config chip Intact base length) (now : UInt64) {bytes : Bytes}
    (hbytes : bytes ≠ []) (hmax : PayloadPacket.addressSize + bytes.length ≤ config.maxPacket)
    (hend : s.engine.session.cursor.toNat + bytes.length ≤ base.toNat + length.toNat) :
    (Engine.receive config chip now
        (.data (PayloadPacket.encode ⟨s.engine.session.cursor, bytes⟩))).Yields
      (s.engine, { flash := s.flash })
      (fun _ st => st.1.session.cursor.toNat = s.engine.session.cursor.toNat + bytes.length ∧
        ((st.1.session.cursor.toNat < base.toNat + length.toNat ∧
            (∀ event ∈ st.2.events, event.IsCall) ∧
            (⟨st.1, st.2.flash⟩ : Snapshot page σ).Receiving config chip Intact base length) ∨
          (st.1.session.cursor.toNat = base.toNat + length.toNat ∧
            st.1.session.activity = .idle ∧
            ∃ (calls : Array Event) (figures : Throughput),
              st.2.events = calls.push (.report figures) ∧ (∀ event ∈ calls, event.IsCall) ∧
                figures.expected = length ∧ figures.progress = length)))
      fun _ _ => False := by
  have htransferring := h.transferring
  have hlimit := Engine.toNat_limit htransferring.admitted
  have hlimitLt := htransferring.limit_lt
  have hcarries := Engine.tracks_carries config (htransferring.tracks reliable hpage
    (fun events => ∀ event ∈ events, event.IsCall) fun events call hevents event hmem => by
      rcases Array.mem_push.mp hmem with hmem | rfl
      · exact hevents event hmem
      · trivial) hpos hfits hlimitLt
  rw [← hlimit] at hcarries
  have hat : Assembly.TracksAt base.toNat (base + length).toNat
      (fun _ board => Intact board.flash ∧ ∀ event ∈ board.events, event.IsCall)
      s.engine.session.cursor.toNat (s.engine.assembly, ({ flash := s.flash } : Board σ)) := by
    rw [hlimit]
    exact ⟨htransferring.positioned, h.intact, by simp⟩
  refine Engine.yields_receive.mpr ⟨fun hhalted => ?_, fun _ hother => hother h.unit,
    fun _ _ => Engine.yields_consume.mpr ⟨fun hlong => ?_, fun _ => ?_⟩⟩
  · simp [h.running] at hhalted
  · simp only [PayloadPacket.encode, List.length_append, LittleEndian.length_encode32] at hlong
    simp only [PayloadPacket.addressSize] at hmax
    omega
  rw [htransferring.activity]
  have hdecode := PayloadPacket.decode_encode (p := ⟨s.engine.session.cursor, bytes⟩) hbytes
  refine Engine.yields_receivePayload (fun error herror => ?_) fun packet hpacket => ?_
  · rw [hdecode] at herror
    cases herror
  obtain rfl := Except.ok.inj (hdecode.symm.trans hpacket)
  have hplacement : s.engine.placement s.engine.session.cursor = .wanted := by
    rw [Engine.placement, if_neg (UInt32.lt_irrefl _), if_pos rfl]
  simp only [hplacement]
  apply Engine.takePayload_carries hcarries hat hplacement
  case hsize => exact Nat.lt_of_le_of_lt (Nat.le_trans (Nat.le_add_left _ _) hend) hlimitLt
  case hsuited => exact fun _ _ => trivial
  case hoverrun =>
    intro hover
    rw [hlimit] at hover
    exact absurd hend (Nat.not_le_of_lt hover)
  case hmoved =>
    intro assembly cursor board' hcursor hlt hat'
    rw [hlimit] at hat' hlt
    obtain ⟨hpositioned, hintact, hcalls⟩ := hat'
    refine ⟨hcursor, Or.inl ⟨hlt, hcalls, ?_, hlt, h.running, h.unit, hintact⟩⟩
    exact { htransferring with positioned := hpositioned }
  case hended =>
    intro assembly board' hcursor hended
    obtain ⟨_, _, _, hcalls⟩ := hended
    have hlast : base + length - s.engine.session.transferBase = length := by
      rw [htransferring.transferBase, UInt32.add_comm, UInt32.add_sub_cancel]
    exact ⟨hcursor, Or.inr ⟨hlimit, rfl, _, _, rfl, hcalls, hlast, hlast⟩⟩
  case hhalts =>
    intro err assembly cursor board' hhalts
    obtain ⟨_, _, _, hfalse⟩ := hhalts
    exact hfalse.elim

theorem Receiving.exchange_next
    (reliable : chip.Reliable page config.appBase.toNat config.appLimit.toNat Intact)
    (hpage : page % Block.size = 0) (hpos : 0 < page) (hfits : page < UInt32.size)
    (h : s.Receiving config chip Intact base length) (now : UInt64) {bytes : Bytes}
    (hbytes : bytes ≠ []) (hmax : PayloadPacket.addressSize + bytes.length ≤ config.maxPacket)
    (hend : s.engine.session.cursor.toNat + bytes.length ≤ base.toNat + length.toNat) :
    let x := s.exchange config chip
      ⟨now, .data (PayloadPacket.encode ⟨s.engine.session.cursor, bytes⟩)⟩
    x.Advances bytes.length ∧
      ((x.after.engine.session.cursor.toNat < base.toNat + length.toNat ∧ x.Silent ∧
          x.after.Receiving config chip Intact base length) ∨
        (x.after.engine.session.cursor.toNat = base.toNat + length.toNat ∧ x.Completes length)) := by
  intro x
  obtain ⟨hanswer, hcursor, houtcome⟩ := exchange_of_taken
    (a := ⟨now, .data (PayloadPacket.encode ⟨s.engine.session.cursor, bytes⟩)⟩)
    (h.receive_next reliable hpage hpos hfits now hbytes hmax hend)
  refine ⟨⟨hanswer, ?_⟩, houtcome⟩
  rw [show x.before = s from exchange_before]
  exact hcursor

/-- Pieces that make up the rest of a transfer, sent in order, are taken one after another. The last
completes the transfer, and nothing is said before. -/
theorem Receiving.exchanges_inOrder
    (reliable : chip.Reliable page config.appBase.toNat config.appLimit.toNat Intact)
    (hpage : page % Block.size = 0) (hpos : 0 < page) (hfits : page < UInt32.size)
    (h : s.Receiving config chip Intact base length) {pieces : List (UInt64 × Bytes)}
    (hpieces : ∀ piece ∈ pieces, piece.2 ≠ [] ∧
      PayloadPacket.addressSize + piece.2.length ≤ config.maxPacket)
    (htotal : s.engine.session.cursor.toNat + (pieces.map fun piece => piece.2.length).sum =
      base.toNat + length.toNat) :
    ∃ front last, s.exchanges config chip (inOrder s.engine.session.cursor pieces) =
        front ++ [last] ∧
      List.Forall₂ (fun x piece => x.Advances piece.2.length) (front ++ [last]) pieces ∧
      (∀ x ∈ front, x.Silent ∧ x.after.engine.session.activity = .transfer base length) ∧
      last.Completes length := by
  induction pieces generalizing s with
  | nil =>
      have hshort := h.short
      simp only [List.map_nil, List.sum_nil] at htotal
      omega
  | cons piece pieces ih =>
      obtain ⟨now, bytes⟩ := piece
      rw [List.forall_mem_cons] at hpieces
      have hbytes : bytes ≠ [] := hpieces.1.1
      simp only [List.map_cons, List.sum_cons] at htotal
      obtain ⟨hadvances, hnext⟩ := h.exchange_next reliable hpage hpos hfits now hbytes
        hpieces.1.2 (by omega)
      have hcursor := hadvances.2
      rw [exchange_before] at hcursor
      rw [inOrder, exchanges]
      rcases hnext with ⟨_, hsilent, hreceiving⟩ | ⟨hlast, hcompletes⟩
      · have hlimit := h.transferring.limit_lt
        have haddress : s.engine.session.cursor + UInt32.ofNat bytes.length =
            (s.exchange config chip ⟨now, .data (PayloadPacket.encode
              ⟨s.engine.session.cursor, bytes⟩)⟩).after.engine.session.cursor := by
          rw [← UInt32.toNat_inj, hcursor]
          exact Address.toNat_add_ofNat (by omega)
        obtain ⟨front, last, hexchanges, hall, hfront, hcompletes⟩ :=
          ih hreceiving hpieces.2 (by omega)
        rw [haddress, hexchanges]
        refine ⟨_ :: front, last, rfl, .cons hadvances hall, ?_, hcompletes⟩
        rw [List.forall_mem_cons]
        exact ⟨⟨hsilent, hreceiving.transferring.activity⟩, hfront⟩
      · cases pieces with
        | nil => exact ⟨[], _, rfl, .cons hadvances .nil, by simp, hcompletes⟩
        | cons piece pieces =>
            have hmore := List.length_pos_iff.mpr (hpieces.2 piece List.mem_cons_self).1
            simp only [List.map_cons, List.sum_cons] at htotal
            omega

/-- While a transfer is under way on a reliable chip its cursor is short of its end, payload ahead of the
cursor is answered with the cursor alone, and the rest of the transfer, sent from the cursor on in pieces
of any size, is taken piece by piece and completes it. -/
theorem transfer_completes_from_cursor (config : Config) (chip : NorFlash σ) (Intact : σ → Prop)
    (reliable : chip.Reliable page config.appBase.toNat config.appLimit.toNat Intact)
    (hpage : page % Block.size = 0) (hpos : 0 < page) (hfits : page < UInt32.size) (flash : σ)
    (hintact : Intact flash) (past : List Arrival) (hsized : ∀ a ∈ past, a.packet.Sized)
    (base length : UInt32)
    (hactivity : ((⟨{}, flash⟩ : Snapshot page σ).run config chip past).engine.session.activity =
      .transfer base length) :
    let s := (⟨{}, flash⟩ : Snapshot page σ).run config chip past
    let cursor := s.engine.session.cursor
    (base ≤ cursor ∧ cursor.toNat < base.toNat + length.toNat) ∧
      (∀ now a₀ a₁ a₂ a₃ payload, payload ≠ [] →
        PayloadPacket.addressSize + payload.length ≤ config.maxPacket →
          cursor < LittleEndian.decode32 a₀ a₁ a₂ a₃ →
            let x := s.exchange config chip ⟨now, .data (a₀ :: a₁ :: a₂ :: a₃ :: payload)⟩
            x.answer = .ok () ∧ x.events = #[.progress (.resync cursor)] ∧ x.after = s) ∧
      ∀ pieces : List (UInt64 × Bytes),
        (∀ piece ∈ pieces, piece.2 ≠ [] ∧
          PayloadPacket.addressSize + piece.2.length ≤ config.maxPacket) →
          cursor.toNat + (pieces.map fun piece => piece.2.length).sum = base.toNat + length.toNat →
            ∃ front last, s.exchanges config chip (inOrder cursor pieces) = front ++ [last] ∧
              List.Forall₂ (fun x piece => x.Advances piece.2.length) (front ++ [last]) pieces ∧
              (∀ x ∈ front, x.Silent ∧ x.after.engine.session.activity = .transfer base length) ∧
              last.Completes length := by
  intro s cursor
  have h : s.Receiving config chip Intact base length :=
    run_receiving reliable hpage hpos hfits hintact hsized hactivity
  refine ⟨⟨UInt32.le_iff_toNat_le.mpr h.transferring.positioned.base_le, h.short⟩, ?_, ?_⟩
  · intro now a₀ a₁ a₂ a₃ payload hpayload hmax hahead
    obtain ⟨b, bs, rfl⟩ := List.exists_cons_of_ne_nil hpayload
    refine h.exchange_ahead now ?_ rfl hahead
    simp only [PayloadPacket.addressSize, List.length_cons] at hmax ⊢
    omega
  · intro pieces hpieces htotal
    exact h.exchanges_inOrder reliable hpage hpos hfits hpieces htotal

end Snapshot

namespace SmallDevice

/-- The units of the small device end within its flash. -/
theorem unit_le {unit : Nat}
    (h : IsUnitOf 16 SmallDevice.config.appBase.toNat SmallDevice.config.appLimit.toNat unit) :
    unit + 16 ≤ 128 := by
  obtain ⟨k, rfl⟩ := h.aligned
  have hnonempty := h.nonempty
  have hlimit : SmallDevice.config.appLimit.toNat = 112 := rfl
  omega

theorem chip_reliable :
    SmallDevice.chip.Reliable 16 SmallDevice.config.appBase.toNat SmallDevice.config.appLimit.toNat
      (FlashMemory.Works 16 SmallDevice.config.appBase.toNat SmallDevice.config.appLimit.toNat) :=
  FlashMemory.chip_reliable (by decide) fun unit hunit => by
    have hle := unit_le hunit
    rw [UInt32.size]
    omega

theorem flash_works :
    SmallDevice.flash.Works 16 SmallDevice.config.appBase.toNat SmallDevice.config.appLimit.toNat := by
  have hbase : SmallDevice.flash.base = 0 := by decide +kernel
  have hsize : SmallDevice.flash.bytes.size = 128 := by decide +kernel
  refine ⟨by decide +kernel, fun unit hunit => ?_⟩
  have hle := unit_le hunit
  rw [hbase, hsize]
  omega

/-- A block in two halves. -/
def halves : List (UInt64 × Bytes) := [(0, List.replicate 8 0), (0, List.replicate 8 0)]

end SmallDevice

open SmallDevice in
theorem transfer_completes_from_cursor_small :
    (start.run SmallDevice.config SmallDevice.chip [transfer]).engine.session.activity =
        .transfer 48 16 ∧
      ∃ front last,
        (start.run SmallDevice.config SmallDevice.chip [transfer]).exchanges SmallDevice.config
            SmallDevice.chip (inOrder 48 halves) = front ++ [last] ∧
          last.Completes 16 := by
  have hactivity : (start.run SmallDevice.config SmallDevice.chip [transfer]).engine.session.activity =
      .transfer 48 16 := by decide +kernel
  have hcursor : (start.run SmallDevice.config SmallDevice.chip [transfer]).engine.session.cursor =
      48 := by decide +kernel
  have hstart : (⟨{}, SmallDevice.flash⟩ : Snapshot 16 FlashMemory) = start := rfl
  obtain ⟨_, _, hpieces⟩ := Snapshot.transfer_completes_from_cursor SmallDevice.config
    SmallDevice.chip _ SmallDevice.chip_reliable (by decide) (by decide) (by decide) SmallDevice.flash
    flash_works [transfer] (by decide) 48 16 (by rw [hstart]; exact hactivity)
  rw [hstart, hcursor] at hpieces
  obtain ⟨front, last, hexchanges, _, _, hcompletes⟩ := hpieces halves (by decide +kernel) rfl
  exact ⟨hactivity, front, last, hexchanges, hcompletes⟩

end FirmwareUpdate
