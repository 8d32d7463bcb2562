import FirmwareUpdate.Proofs.Checked
import FirmwareUpdate.Proofs.Engine.Marks
import FirmwareUpdate.Proofs.Engine.Reports
import FirmwareUpdate.Proofs.Engine.Position

/-!
# The ranges that addresses stay in

Between packets the cursor is in the transfer under way, the transfer in the application region, and what is
pending reaches from the start of its unit or of the transfer to the cursor at least. Hence no sum or
difference of addresses wraps while a packet is handled, and every slice lies in its buffer.

Two sums are not among those: the count of bytes taken, which nothing bounds, and the address of the tag in
the boot record, which the configuration gives.
-/

namespace FirmwareUpdate

variable {page : Nat} {σ τ α : Type} {config : Config} {chip : NorFlash σ}

/-! ### Checked steps of the engine -/

namespace Checked

/-- A checked step on the board, taken beside a state that it leaves alone. -/
def onBoard (checked : Checked (Board σ) α) : Checked (τ × Board σ) α :=
  fun (t, board) => (checked board).map fun result => Attempt.onBoard (fun _ => result) (t, board)

/-- A checked step of the unit under assembly. -/
def assemble (checked : Checked (Assembly page × Board σ) α) : Checked (Engine page × Board σ) α :=
  fun (e, board) =>
    (checked (e.assembly, board)).map fun result => Engine.assemble (fun _ => result) (e, board)

variable {t : τ} {e : Engine page} {board : Board σ}

theorem Agrees.onBoard {checked : Checked (Board σ) α} {attempt : Attempt (Board σ) α}
    (h : checked.Agrees attempt board) :
    (Checked.onBoard checked).Agrees (Attempt.onBoard attempt) (t, board) := by
  rw [Agrees, Checked.onBoard, h]
  rfl

theorem Agrees.assemble {checked : Checked (Assembly page × Board σ) α}
    {attempt : Attempt (Assembly page × Board σ) α} (h : checked.Agrees attempt (e.assembly, board)) :
    (Checked.assemble checked).Agrees (Engine.assemble attempt) (e, board) := by
  rw [Agrees, Checked.assemble, h]
  rfl

/-- Where a packet with the given address lies. -/
def placement? (e : Engine page) (address : UInt32) : Option Engine.Placement :=
  if e.session.cursor < address then some .ahead
  else if address = e.session.cursor then some .wanted
  else
    e.assembly.pendingFrom?.map fun
      | some start => if start ≤ address then .wanted else .settled
      | none => .settled

/-- Copies what is left of a packet unit by unit. -/
def copy (config : Config) (chip : NorFlash σ) : Bytes → Checked (Engine page × Board σ) Unit
  | [] => pure ()
  | b :: bs => do
    let e ← ofAttempt Engine.current
    assemble (seek config.key chip e.session.cursor)
    let taken ← assemble (insert e.session.cursor (b :: bs))
    let cursor ← within (Address.advance? e.session.cursor taken)
    ofAttempt (Engine.updateSession fun s => { s with cursor })
    require (0 < taken ∧ taken ≤ (b :: bs).length)
    copy config chip (bs.drop (taken - 1))
termination_by bytes => bytes.length
decreasing_by simp only [List.length_drop, List.length_cons]; omega

def complete (config : Config) (chip : NorFlash σ) (now : UInt64) (limit : UInt32) :
    Checked (Engine page × Board σ) Unit := do
  assemble (commit config.key chip)
  ofAttempt (Engine.await .idle)
  let e ← ofAttempt Engine.current
  let length ← within (Address.sub? limit e.session.transferBase)
  ofAttempt (Engine.report now length)

def takePayload (config : Config) (chip : NorFlash σ) (now : UInt64) (limit : UInt32)
    (packet : PayloadPacket) : Checked (Engine page × Board σ) Unit := do
  let length ← within (Address.word? packet.payload.length)
  match Engine.stopWithin? limit packet.address length with
  | none => ofAttempt (throw (.overrun (packet.address + length) limit))
  | some stop => do
    ofAttempt (Engine.updateSession fun s =>
      { s with cursor := packet.address, bytesRead := s.bytesRead + length })
    copy config chip packet.payload
    if stop = limit then complete config chip now limit else pure ()

def receivePayload (config : Config) (chip : NorFlash σ) (now : UInt64) (limit : UInt32)
    (bytes : Bytes) : Checked (Engine page × Board σ) Unit := do
  let packet ← ofAttempt (Attempt.ofPacket (PayloadPacket.decode bytes))
  let e ← ofAttempt Engine.current
  let placement ← within (placement? e packet.address)
  match placement with
  | .ahead => ofAttempt (Engine.emit (.progress (.resync e.session.cursor)))
  | .settled => pure ()
  | .wanted => takePayload config chip now limit packet

def checkDigest (chip : NorFlash σ) (address size : UInt32) (expected : Digest) :
    Checked (Engine page × Board σ) Unit := do
  let actual ← onBoard (digest chip address size)
  if actual = expected then
    ofAttempt (Engine.updateSession fun s => { s with digestFailed := false, verified := true })
  else
    ofAttempt do
      Engine.updateSession fun s => { s with digestFailed := true, verified := false }
      Engine.emit (.progress (.digestFailed address))
      throw (.digestMismatch address)

def receiveDigest (chip : NorFlash σ) (address size : UInt32) (bytes : Bytes) :
    Checked (Engine page × Board σ) Unit := do
  ofAttempt (Engine.await .idle)
  match Bytes.exactly? Sha256.digestSize bytes with
  | some expected => checkDigest chip address size expected
  | none => ofAttempt (throw (.digestLength Sha256.digestSize bytes.length))

def consume (config : Config) (chip : NorFlash σ) (now : UInt64) (bytes : Bytes) :
    Checked (Engine page × Board σ) Unit := do
  let e ← ofAttempt Engine.current
  if config.maxPacket < bytes.length then
    ofAttempt do
      Engine.await (Engine.dropExpected e.session.activity)
      throw (.malformed (.tooLong config.maxPacket bytes.length))
  else
    match e.session.activity with
    | .idle => ofAttempt (throw .noTransfer)
    | .chainVector => ofAttempt (Engine.receiveVector bytes)
    | .digest address size => receiveDigest chip address size bytes
    | .transfer base length => do
      let limit ← within (Address.add? base length)
      receivePayload config chip now limit bytes

def beginTransfer (config : Config) (chip : NorFlash σ) (now : UInt64) (address length : UInt32) :
    Checked (Engine page × Board σ) Unit := do
  ofAttempt Engine.requireIdle
  ofAttempt (Attempt.refuseIf (length = 0) .emptyRange)
  ofAttempt (Attempt.refuseIf (¬config.Admits address length) (.outsideRegion address length))
  ofAttempt (Attempt.refuseIf
    (address.toNat % Block.size ≠ 0 ∨ length.toNat % Block.size ≠ 0) (.unaligned address length))
  assemble (seek config.key chip address)
  ofAttempt (Engine.updateSession fun s => s.beginTransfer now address length)

def execute (config : Config) (chip : NorFlash σ) (now : UInt64) (packet : ControlPacket) :
    Checked (Engine page × Board σ) Unit :=
  match packet.command with
  | .data => beginTransfer config chip now packet.address packet.length.toUInt32
  | _ => ofAttempt (Engine.execute config chip now packet)

def handle (config : Config) (chip : NorFlash σ) (now : UInt64) :
    Packet → Checked (Engine page × Board σ) Unit
  | .control bytes => do
    let packet ← ofAttempt (Attempt.ofPacket (ControlPacket.decode bytes))
    execute config chip now packet
  | .data bytes => consume config chip now bytes

/-- Takes a packet. An engine that is halted, or does not fit its chip, has nothing to compute. -/
def receive (config : Config) (chip : NorFlash σ) (now : UInt64) (packet : Packet) :
    Checked (Engine page × Board σ) Unit :=
  fun (e, board) =>
    if e.halted ∨ chip.eraseSize ≠ page then
      ofAttempt (Engine.receive config chip now packet) (e, board)
    else
      (handle config chip now packet (e, board)).map fun result =>
        Engine.latched chip (fun _ => result) (e, board)

/-! ### Nothing wraps -/

open Attempt Engine

variable {now : UInt64} {base length : UInt32}

theorem placement?_eq (h : e.assembly.PendsInRange) (address : UInt32) :
    placement? e address = some (e.placement address) := by
  unfold placement? Engine.placement
  rw [Assembly.pendingFrom?_eq h]
  split
  · rfl
  · split
    · rfl
    · cases e.assembly.pendingFrom <;> rfl

theorem copy_agrees (hpos : 0 < page) (hfits : page < UInt32.size) {base limit : Nat}
    (hlimit : limit < UInt32.size) {bytes : Bytes}
    (hat : e.assembly.Positioned base limit e.session.cursor.toNat)
    (hend : e.session.cursor.toNat + bytes.length ≤ limit) :
    (copy config chip bytes).Agrees (Engine.copy config chip bytes) (e, board) := by
  have hcarries := tracks_carries config (tracks_true chip base limit) hpos hfits hlimit
  -- Each round leaves the unit positioned at the new cursor, which is all that the rest needs.
  induction hlength : bytes.length using Nat.strongRecOn generalizing bytes e board with
  | ind n ih =>
      cases bytes with
      | nil =>
          rw [copy, Engine.copy]
          exact agrees_pure
      | cons b bs =>
          rw [copy, Engine.copy]
          simp only [List.length_cons] at hend hlength
          refine agrees_ofAttempt.bind (yields_current.mpr ?_)
          refine (seek_agrees hpos hfits (hat.pendsInRange hlimit)).assemble.bind
            (yields_assemble.mpr ?_)
          refine (hcarries.seek ⟨hat, trivial⟩ (by omega)).mono (fun _ st hst => ?_)
            fun _ _ _ => trivial
          obtain ⟨⟨hsought, _⟩, hthere⟩ := hst
          refine insert_agrees.assemble.bind (yields_assemble.mpr ?_)
          refine (hcarries.insert ⟨hsought, trivial⟩ hthere (by simp) (by simpa using hend)
            trivial).mono (fun taken st hst => ?_) fun _ _ _ => trivial
          obtain ⟨htaken, hle, hinserted, _⟩ := hst
          simp only [List.length_cons] at hle
          have hcursor : (e.session.cursor + UInt32.ofNat taken).toNat =
              e.session.cursor.toNat + taken := Address.toNat_add_ofNat (by omega)
          have hrest : (bs.drop (taken - 1)).length = bs.length - (taken - 1) := List.length_drop
          refine agrees_within (Address.advance?_of_lt (by omega)) ?_
          refine Agrees.bind rfl (yields_updateSession.mpr (agrees_require ⟨htaken, hle⟩ ?_))
          rw [← hcursor] at hinserted
          refine ih _ ?_ hinserted ?_ hrest
          · omega
          · simp only [hcursor]
            omega

theorem complete_agrees (hfits : page < UInt32.size) (h : e.assembly.PendsInRange) {limit : UInt32}
    (hbase : e.session.transferBase.toNat ≤ limit.toNat) :
    (complete config chip now limit).Agrees (Engine.complete config chip now limit) (e, board) := by
  refine (commit_agrees hfits h).assemble.bind (yields_assemble.mpr ?_)
  refine yields_of_forall (fun _ _ => ?_) fun _ _ => trivial
  refine agrees_ofAttempt.bind (yields_await.mpr (agrees_ofAttempt.bind (yields_current.mpr ?_)))
  exact agrees_within (Address.sub?_of_le hbase) agrees_ofAttempt

theorem takePayload_agrees (hpos : 0 < page) (hfits : page < UInt32.size)
    (h : e.Transferring config base length) {packet : PayloadPacket}
    (hplacement : e.placement packet.address = .wanted)
    (hsize : packet.payload.length < UInt32.size) :
    (takePayload config chip now (base + length) packet).Agrees
      (Engine.takePayload config chip now (base + length) packet) (e, board) := by
  have hlimit := toNat_limit h.admitted
  have hcarries := tracks_carries config (tracks_true chip base.toNat (base.toNat + length.toNat)) hpos
    hfits h.limit_lt
  have hat : Assembly.TracksAt base.toNat (base.toNat + length.toNat) (fun _ _ => True)
      e.session.cursor.toNat (e.assembly, board) := ⟨h.positioned, trivial⟩
  have hwanted := hcarries.at_wanted hat hplacement
  simp only [takePayload, Engine.takePayload]
  refine agrees_within (Address.word?_of_lt hsize) ?_
  cases hstop : stopWithin? (base + length) packet.address (UInt32.ofNat packet.payload.length) with
  | none => exact agrees_ofAttempt
  | some stop =>
      obtain ⟨hsum, hle⟩ := stopWithin?_eq_some hstop
      rw [UInt32.toNat_ofNat_of_lt' hsize] at hsum
      rw [hlimit, ← hsum] at hle
      refine agrees_ofAttempt.bind (yields_updateSession.mpr ?_)
      refine (copy_agrees hpos hfits h.limit_lt hwanted.1 hle).bind ?_
      refine ((copy_carries hcarries h.limit_lt hwanted hle trivial).and copy_session).mono
        (fun _ st hst => ?_) fun _ _ _ => trivial
      obtain ⟨⟨_, hat, _⟩, hsession⟩ := hst
      refine agrees_ite (fun _ => ?_) fun _ => agrees_pure
      refine complete_agrees hfits (hat.pendsInRange h.limit_lt) ?_
      rw [hsession, hlimit]
      exact h.transferBase ▸ Nat.le_add_right _ _

theorem receivePayload_agrees (hpos : 0 < page) (hfits : page < UInt32.size)
    (h : e.Transferring config base length) {bytes : Bytes} (hsize : bytes.length < UInt32.size) :
    (receivePayload config chip now (base + length) bytes).Agrees
      (Engine.receivePayload config chip now (base + length) bytes) (e, board) := by
  refine agrees_ofPacket fun packet hdecode => ?_
  have hshort := PayloadPacket.length_of_decode hdecode
  refine agrees_ofAttempt.bind (yields_current.mpr ?_)
  refine agrees_within (placement?_eq (h.positioned.pendsInRange h.limit_lt) _) ?_
  cases hplacement : e.placement packet.address with
  | ahead => exact agrees_ofAttempt
  | settled => exact agrees_pure
  | wanted => exact takePayload_agrees hpos hfits h hplacement (by omega)

theorem checkDigest_agrees {address size : UInt32} {expected : Digest} :
    (checkDigest chip address size expected).Agrees (Engine.checkDigest chip address size expected)
      (e, board) := by
  unfold checkDigest Engine.checkDigest
  refine (digest_agrees address size).onBoard.bind (yields_of_forall (fun actual st => ?_)
    fun _ _ => trivial)
  split <;> exact agrees_ofAttempt

theorem receiveDigest_agrees {address size : UInt32} {bytes : Bytes} :
    (receiveDigest chip address size bytes).Agrees (Engine.receiveDigest chip address size bytes)
      (e, board) := by
  unfold receiveDigest Engine.receiveDigest
  refine agrees_ofAttempt.bind (yields_await.mpr ?_)
  cases Bytes.exactly? Sha256.digestSize bytes with
  | none => exact agrees_ofAttempt
  | some expected => exact checkDigest_agrees

theorem consume_agrees (hpos : 0 < page) (hfits : page < UInt32.size) (h : e.Positioned config)
    {bytes : Bytes} (hsize : bytes.length < UInt32.size) :
    (consume config chip now bytes).Agrees (Engine.consume config chip now bytes) (e, board) := by
  unfold consume Engine.consume
  refine agrees_ofAttempt.bind (yields_current.mpr (agrees_ite (fun _ => agrees_ofAttempt) fun _ => ?_))
  cases hactivity : e.session.activity with
  | idle => exact agrees_ofAttempt
  | chainVector => exact agrees_ofAttempt
  | digest address size => exact receiveDigest_agrees
  | transfer base length =>
      have htransferring := h.transferring hactivity
      refine agrees_within ?_ (receivePayload_agrees hpos hfits htransferring hsize)
      rw [Address.add?_eq_some_iff, toNat_limit htransferring.admitted]

theorem execute_agrees (hpos : 0 < page) (hfits : page < UInt32.size) (h : e.Consistent)
    {packet : ControlPacket} :
    (execute config chip now packet).Agrees (Engine.execute config chip now packet) (e, board) := by
  obtain ⟨command, length, address⟩ := packet
  cases command with
  | data =>
      refine agrees_ofAttempt.bind (yields_requireIdle.mpr ⟨fun _ => trivial, fun hidle => ?_⟩)
      have hnothing := h.nothingPending (by simp [hidle])
      refine agrees_ofAttempt.bind (yields_refuseIf.mpr ⟨fun _ => trivial, fun _ => ?_⟩)
      refine agrees_ofAttempt.bind (yields_refuseIf.mpr ⟨fun _ => trivial, fun _ => ?_⟩)
      refine agrees_ofAttempt.bind (yields_refuseIf.mpr ⟨fun _ => trivial, fun _ => ?_⟩)
      exact (seek_agrees hpos hfits hnothing.pendsInRange).assemble.bind
        (yields_of_forall (fun _ _ => agrees_ofAttempt) fun _ _ => trivial)
  | restart | vector | digest | done | reset | ping => exact agrees_ofAttempt

/-- Handling a packet computes nothing that is out of range. -/
theorem receive_agrees (hpos : 0 < page) (hfits : page < UInt32.size) (hconsistent : e.Consistent)
    (h : e.Positioned config) {packet : Packet} (hsized : packet.Sized) :
    (receive config chip now packet).Agrees (Engine.receive config chip now packet) (e, board) := by
  rw [Agrees, receive]
  split
  · rfl
  · have hhandle : (handle config chip now packet).Agrees (Engine.handle config chip now packet)
        (e, board) := by
      cases packet with
      | data bytes => exact consume_agrees hpos hfits h hsized
      | control bytes =>
          exact agrees_ofPacket fun _ _ => execute_agrees hpos hfits hconsistent
    rw [hhandle, receive_eq_latched]
    rfl

end Checked

/-! ### Where everything is between packets -/

namespace Engine

variable {base length : UInt32}

/-- A span is pending. It is in a transfer, which is not verified, begins where that or its unit does, and
reaches the cursor. -/
structure Pends (e : Engine page) (u : UnitBuffer page) (s : Span) : Prop where
  awaited : ∃ base length, e.session.activity = .transfer base length
  unverified : e.session.verified = false
  nonempty : s.start < s.stop
  stop_le : s.stop ≤ page
  start : u.base.toNat + s.start = max e.session.transferBase.toNat u.base.toNat
  start_le : u.base.toNat + s.start ≤ e.session.cursor.toNat
  le_stop : e.session.cursor.toNat ≤ u.base.toNat + s.stop

/-- A transfer is under way. It is of whole blocks of the application region, at most as many bytes as a
command can announce, and has the cursor in it. -/
structure Transfers (config : Config) (base length : UInt32) (e : Engine page) : Prop where
  le_base : config.appBase ≤ base
  transferBase : e.session.transferBase = base
  le_cursor : base ≤ e.session.cursor
  cursor_le : e.session.cursor.toNat ≤ base.toNat + length.toNat
  le_limit : base.toNat + length.toNat ≤ config.appLimit.toNat
  whole : Block.size ∣ base.toNat ∧ Block.size ∣ length.toNat
  nonempty : 0 < length.toNat
  announced : length.toNat ≤ 65535

/-- What holds of an engine between packets. -/
structure InPlace (config : Config) (e : Engine page) : Prop where
  aligned : ∀ u, e.assembly.buffer = some u → page ∣ u.base.toNat
  pending : ∀ s, e.assembly.pending = some s → ∃ u, e.assembly.buffer = some u ∧ e.Pends u s
  transfer : ∀ base length, e.session.activity = .transfer base length → e.Transfers config base length
  exclusive : ¬(e.session.digestFailed ∧ e.session.verified)

theorem Positioned.inPlace {latest : Option Announcement} {e : Engine page} (h : e.Positioned config)
    (hconsistent : e.Consistent) (hlocated : e.session.Located config latest e.assembly)
    (hexclusive : e.session.verdict.Exclusive) : e.InPlace config where
  aligned := h.aligned
  pending s hs := by
    obtain ⟨base, length, hactivity⟩ :
        ∃ base length, e.session.activity = .transfer base length := by
      by_contra hother
      have hnothing := hconsistent.nothingPending (fun base length h => hother ⟨base, length, h⟩)
      simp [hnothing.eq_none] at hs
    have htransferring := h.transferring hactivity
    obtain ⟨u, hbuffer⟩ := htransferring.positioned.coherent s hs
    refine ⟨u, hbuffer, ?_⟩
    have hspans := htransferring.positioned.pending u s hbuffer hs
    exact
      { awaited := ⟨base, length, hactivity⟩
        unverified := hconsistent.unverified hactivity
        nonempty := hspans.nonempty
        stop_le := hspans.stop_le_page
        start := htransferring.transferBase ▸ hspans.start
        start_le := hspans.start_le
        le_stop := hspans.cursor_le }
  transfer base length hactivity := by
    have htransferring := h.transferring hactivity
    obtain ⟨-, -, announcement, -, rfl⟩ := hlocated.transfer hactivity
    have hannounced := announcement.length.toNat_lt
    exact
      { le_base := htransferring.admitted.1
        transferBase := htransferring.transferBase
        le_cursor := UInt32.le_iff_toNat_le.mpr htransferring.positioned.base_le
        cursor_le := htransferring.positioned.le_limit
        le_limit := htransferring.admitted.2
        whole := ⟨Nat.dvd_of_mod_eq_zero htransferring.whole.1,
          Nat.dvd_of_mod_eq_zero htransferring.whole.2⟩
        nonempty := Nat.pos_of_ne_zero fun hzero =>
          htransferring.nonempty (UInt32.toNat_inj.mp hzero)
        announced := by
          rw [UInt16.toNat_toUInt32]
          omega }
  exclusive := hexclusive

end Engine

namespace Snapshot

/-- Between any two packets everything is in place, and no packet makes the engine compute an address or an
index that is out of range. -/
theorem addresses_stay_in_range (config : Config) (chip : NorFlash σ) (hpos : 0 < page)
    (hfits : page < UInt32.size) (flash : σ) (past : List Arrival)
    (hsized : ∀ b ∈ past, b.packet.Sized) :
    let s := (⟨{}, flash⟩ : Snapshot page σ).run config chip past
    s.engine.InPlace config ∧
      ∀ a : Arrival, a.packet.Sized →
        (Checked.receive config chip a.now a.packet).Agrees
          (Engine.receive config chip a.now a.packet) (s.engine, { flash := s.flash }) := by
  intro s
  let start : Snapshot page σ := ⟨{}, flash⟩
  have hconsistent : s.engine.Consistent := run_consistent Engine.consistent_fresh past
  have hpositioned : s.engine.Positioned config :=
    run_positioned hpos hfits Engine.consistent_fresh Engine.positioned_fresh hsized
  have hlocated : s.Located config (Exchange.announced (start.exchanges config chip past)) :=
    run_located hpos (located_start flash) hsized
  have hexclusive : s.engine.session.verdict.Exclusive :=
    run_exclusive (s := start) Verdict.exclusive_unchecked past
  exact ⟨hpositioned.inPlace hconsistent hlocated.1 hexclusive, fun a hsize =>
    Checked.receive_agrees hpos hfits hconsistent hpositioned hsize⟩

end Snapshot

end FirmwareUpdate

/-! ### A transfer halfway -/

namespace FirmwareUpdate

open SmallDevice

theorem addresses_stay_in_range_halfway :
    (∀ b ∈ firstHalf, b.packet.Sized) ∧ secondHalf.packet.Sized ∧
      (run firstHalf).engine.assembly.pendingFrom = some 48 ∧
      (run firstHalf).engine.InPlace SmallDevice.config ∧
      (Checked.receive SmallDevice.config SmallDevice.chip secondHalf.now secondHalf.packet).Agrees
        (Engine.receive SmallDevice.config SmallDevice.chip secondHalf.now secondHalf.packet)
        ((run firstHalf).engine, { flash := (run firstHalf).flash }) := by
  have hsized : ∀ b ∈ firstHalf, b.packet.Sized := by decide +kernel
  have hsize : secondHalf.packet.Sized := by decide +kernel
  have hpos : 0 < 16 := by decide
  have hfits : 16 < UInt32.size := by decide
  obtain ⟨hplace, hagrees⟩ := Snapshot.addresses_stay_in_range SmallDevice.config SmallDevice.chip
    hpos hfits SmallDevice.flash firstHalf hsized
  exact ⟨hsized, hsize, by decide +kernel, hplace, hagrees secondHalf hsize⟩

/-- A transfer that ran past the end of the address space would not get that far. -/
example : (Checked.receive SmallDevice.config SmallDevice.chip 0 secondHalf.packet
    (({ session := { activity := .transfer 0xfffffff0 32 } } : Engine 16),
      { flash := SmallDevice.flash })).isNone := by decide +kernel

end FirmwareUpdate
