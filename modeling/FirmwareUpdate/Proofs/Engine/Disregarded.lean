import FirmwareUpdate.Proofs.Digest
import FirmwareUpdate.Proofs.Engine.Latch
import FirmwareUpdate.Proofs.Engine.Payload
import FirmwareUpdate.Proofs.Flash.Memory

/-!
# Data that is disregarded

Data that is refused, unless a call made for payload is what refuses it, and payload that is answered
or dropped leave flash, the unit under assembly and the transfer as they were. The peer is told where
to resume or that a digest does not match, and else nothing.
-/

namespace FirmwareUpdate

variable {page : Nat} {σ : Type} {config : Config} {chip : NorFlash σ} {view : NorFlash.View σ}

/-- Data was disregarded: it left no trace but that a chaining vector or a digest is awaited no more, the
verdict given, and the notices that the peer was sent. -/
structure Exchange.Disregards (view : NorFlash.View σ) (verdict : Verdict) (notices : List Progress)
    (x : Exchange page σ) : Prop where
  content : view.content x.after.flash = view.content x.before.flash
  onlyReads : Board.OnlyReads { flash := x.after.flash, events := x.events }
  assembly : x.after.engine.assembly = x.before.engine.assembly
  session : x.after.engine.session =
    { x.before.engine.session with
      activity := Engine.dropExpected x.before.engine.session.activity
      digestFailed := verdict.digestFailed
      verified := verdict.verified }
  resetRequested : x.after.engine.resetRequested = x.before.engine.resetRequested
  told : Event.told x.events = notices.map .progress

/-- Data that was refused with `err` was disregarded. Only for a digest that does not match is there
another verdict and a notice. -/
def Exchange.DisregardsFor (view : NorFlash.View σ) (x : Exchange page σ) : UpdateError → Prop
  | .digestMismatch address =>
    (∃ size, x.before.engine.session.activity = .digest address size) ∧
      x.Disregards view .failed [.digestFailed address]
  | _ => x.Disregards view x.before.engine.session.verdict []

/-- Flash was only read, which changed nothing, and the peer was told nothing. -/
structure Board.Looked (view : NorFlash.View σ) (content : FlashContent) (board : Board σ) : Prop where
  holds : board.Holds view content
  onlyReads : board.OnlyReads
  told : Event.told board.events = []

theorem Board.looked_fresh {flash : σ} (sound : view.Sound flash) :
    Looked view (view.content flash) { flash } :=
  ⟨⟨sound, rfl⟩, by simp [OnlyReads], rfl⟩

theorem Board.read_keeps_looked (inert : chip.Inert view) (content : FlashContent) (address : UInt32)
    (length : Nat) : (Board.read chip address length).Keeps (Looked view content) := by
  intro board h
  have htold : (Board.read chip address length).Yields board
      (fun _ board' => Event.told board'.events = []) fun _ board' => Event.told board'.events = [] :=
    yields_call (fun _ _ _ => by simp [h.told, Event.IsCall]) fun _ _ _ => by simp [h.told, Event.IsCall]
  have hkept := ((keptByReads_holds inert content).read address length board h.holds).and
    (((keptByReads_onlyReads chip).read address length board h.onlyReads).and htold)
  exact hkept.mono (fun _ _ hst => ⟨hst.1, hst.2.1, hst.2.2⟩) fun _ _ hst => ⟨hst.1, hst.2.1, hst.2.2⟩

namespace Engine

open Attempt

variable {e : Engine page} {board : Board σ} {address : UInt32}

/-! ### Where a packet lies -/

theorem placement_ahead (h : e.session.cursor < address) : e.placement address = .ahead := by
  simp [placement, h]

/-- Payload before the cursor is dropped if its ciphertext is buffered no more. -/
theorem placement_settled (h : address < e.session.cursor)
    (hgone : ∀ start, e.assembly.pendingFrom = some start → address < start) :
    e.placement address = .settled := by
  have hbehind : ¬e.session.cursor < address := fun hlt => UInt32.lt_asymm h hlt
  have hne : address ≠ e.session.cursor := UInt32.ne_of_lt h
  unfold placement
  rw [if_neg hbehind, if_neg hne]
  cases hstart : e.assembly.pendingFrom with
  | none => rfl
  | some start => exact if_neg (UInt32.not_le.mpr (hgone start hstart))

/-- Payload at the cursor is wanted, and so is payload that goes back over buffered ciphertext. -/
theorem placement_wanted (h : address = e.session.cursor ∨ address ≤ e.session.cursor ∧
    ∃ start, e.assembly.pendingFrom = some start ∧ start ≤ address) :
    e.placement address = .wanted := by
  unfold placement
  rcases h with rfl | ⟨hle, start, hstart, hlow⟩
  · rw [if_neg (UInt32.lt_irrefl _), if_pos rfl]
  · rw [if_neg (UInt32.not_lt.mpr hle)]
    split
    · rfl
    · rw [hstart]
      exact if_pos hlow

theorem stopWithin?_of_lt {limit address length : UInt32}
    (h : limit.toNat < address.toNat + length.toNat) : stopWithin? limit address length = none := by
  cases hstop : stopWithin? limit address length with
  | none => rfl
  | some stop =>
      obtain ⟨hsum, hle⟩ := stopWithin?_eq_some hstop
      omega

end Engine

namespace Snapshot

open Attempt Engine

variable {s : Snapshot page σ} {a : Arrival} {now : UInt64} {bytes : Bytes} {err : UpdateError}
variable {answer : Except UpdateError Unit} {events : Array Event} {flash : σ} {verdict : Verdict}
variable {notices : List Progress} {halted : Bool}

/-- A chaining vector or a digest that was awaited is awaited no more. -/
theorem disregards_dropped (hcontent : view.content flash = view.content s.flash)
    (hreads : Board.OnlyReads ({ flash, events } : Board σ))
    (htold : Event.told events = notices.map .progress)
    {activity : Activity} (hactivity : dropExpected s.engine.session.activity = activity) :
    Exchange.Disregards view verdict notices
      ⟨a, s, answer, events,
        ⟨{ s.engine with
            session := { s.engine.session with
              activity, digestFailed := verdict.digestFailed, verified := verdict.verified }
            halted }, flash⟩⟩ where
  content := hcontent
  onlyReads := hreads
  assembly := rfl
  session := by rw [hactivity]
  resetRequested := rfl
  told := htold

/-- Nothing was done for the packet. -/
theorem disregards_untouched
    (hactivity : dropExpected s.engine.session.activity = s.engine.session.activity) :
    Exchange.Disregards view s.engine.session.verdict []
      ⟨a, s, answer, #[], ⟨{ s.engine with halted }, s.flash⟩⟩ :=
  disregards_dropped rfl (by simp [Board.OnlyReads]) rfl hactivity

/-- What comes of a packet that is refused with `err` in a state. -/
def refusal (s : Snapshot page σ) (a : Arrival) (err : UpdateError) (st : Engine page × Board σ) :
    Exchange page σ :=
  ⟨a, s, .error err, st.2.events, ⟨st.1.haltedBy err, st.2.flash⟩⟩

theorem dropExpected_idle (h : s.engine.session.activity = .idle) :
    dropExpected s.engine.session.activity = s.engine.session.activity :=
  (congrArg dropExpected h).trans h.symm

theorem dropExpected_transfer {base length : UInt32}
    (h : s.engine.session.activity = .transfer base length) :
    dropExpected s.engine.session.activity = s.engine.session.activity :=
  (congrArg dropExpected h).trans h.symm

/-- Taking a digest only reads flash. -/
theorem digest_looked (inert : chip.Inert view) (sound : view.Sound flash) (address size : UInt32) :
    (Region.digest chip address size).Yields { flash }
      (fun _ => Board.Looked view (view.content flash)) fun _ => Board.Looked view (view.content flash) :=
  digest_keeps (Board.read_keeps_looked inert (view.content flash)) address size { flash }
    (Board.looked_fresh sound)

theorem receiveDigest_disregarded (inert : chip.Inert view) (sound : view.Sound s.flash) (a : Arrival)
    {address size : UInt32} (hactivity : s.engine.session.activity = .digest address size) :
    (receiveDigest chip address size bytes).Yields (s.engine, { flash := s.flash })
      (fun _ _ => True) fun err st => (s.refusal a err st).DisregardsFor view err := by
  have hidle : dropExpected s.engine.session.activity = .idle := congrArg dropExpected hactivity
  refine yields_receiveDigest
    (fun _ => disregards_dropped rfl (by simp [Board.OnlyReads]) rfl hidle)
    fun expected _ => yields_checkDigest.mpr ?_
  refine ((digest_looked inert sound address size).and
    (Region.digest_refuses_flash chip address size)).mono
    (fun _ board hst => ⟨fun _ => trivial, fun _ => ⟨⟨size, hactivity⟩, ?_⟩⟩) ?_
  · obtain ⟨hkept, -⟩ := hst
    refine disregards_dropped hkept.holds.2 ?_ (by simp [hkept.told, Event.IsCall]) hidle
    exact (Board.keptByReads_onlyReads chip).emit (.progress _) id board hkept.onlyReads
  · rintro _ board ⟨hkept, failure, rfl⟩
    have htold : Event.told board.events = [].map .progress := hkept.told
    exact disregards_dropped hkept.holds.2 hkept.onlyReads htold hidle

theorem receivePayload_disregarded (view : NorFlash.View σ) (hpos : 0 < page) (a : Arrival)
    {base length : UInt32}
    (hactivity : s.engine.session.activity = .transfer base length) {limit : UInt32} :
    (receivePayload config chip now limit bytes).Yields (s.engine, { flash := s.flash })
      (fun _ _ => True)
      fun err st => ¬err.Interrupts → (s.refusal a err st).DisregardsFor view err := by
  have hkept := dropExpected_transfer hactivity
  refine yields_receivePayload (fun _ _ _ => disregards_untouched hkept) fun packet _ => ?_
  split
  · trivial
  · trivial
  refine (takePayload_refused hpos).mono (fun _ _ _ => trivial) ?_
  rintro err _ ⟨-, hinterrupts | ⟨hpacket, rfl⟩⟩ hcause
  · exact absurd hinterrupts hcause
  · cases err with
    | malformed | overrun | halted => exact disregards_untouched hkept
    | _ => exact hpacket.elim

/-- Data that is refused is disregarded, unless a call made for payload is what refuses it. -/
theorem exchange_refused (hpos : 0 < page) (inert : chip.Inert view) (sound : view.Sound s.flash)
    (hs : s.engine.Attentive chip)
    (hanswer : (s.exchange config chip ⟨now, .data bytes⟩).answer = .error err)
    (hcause : (∃ base length, s.engine.session.activity = .transfer base length) → ¬err.Interrupts) :
    (s.exchange config chip ⟨now, .data bytes⟩).DisregardsFor view err := by
  have hidle (hstopped : ¬(s.engine.halted = false ∧ chip.eraseSize = page)) :
      dropExpected s.engine.session.activity = s.engine.session.activity := by
    by_cases hactivity : s.engine.session.activity = .idle
    · exact dropExpected_idle hactivity
    · exact absurd (hs hactivity) hstopped
  refine exchange_holds (R := fun x => ∀ err, x.answer = .error err →
    ((∃ base length, s.engine.session.activity = .transfer base length) → ¬err.Interrupts) →
      x.DisregardsFor view err) ?_ err hanswer hcause
  refine yields_receive.mpr ⟨fun hhalted => ?_, fun _ hunit => ?_, fun _ _ => ?_⟩
  · rintro _ ⟨⟩ -
    exact disregards_untouched (hidle fun hopen => by simp [hhalted] at hopen)
  · rintro _ ⟨⟩ -
    exact disregards_untouched (hidle fun hopen => hunit hopen.2)
  refine yields_consume.mpr ⟨fun _ => ?_, fun _ => ?_⟩
  · rintro _ ⟨⟩ -
    exact disregards_dropped rfl (by simp [Board.OnlyReads]) rfl rfl
  split
  · next hactivity =>
      rintro _ ⟨⟩ -
      exact disregards_untouched (dropExpected_idle hactivity)
  · next hactivity =>
      refine yields_receiveVector (fun _ => ?_) fun _ _ _ h => by cases h
      rintro _ ⟨⟩ -
      exact disregards_dropped rfl (by simp [Board.OnlyReads]) rfl (congrArg dropExpected hactivity)
  · next hactivity =>
      refine (receiveDigest_disregarded inert sound ⟨now, .data bytes⟩ hactivity).mono
        (fun _ _ _ _ h => by cases h) ?_
      rintro err st hst _ ⟨⟩ -
      exact hst
  · next base length hactivity =>
      refine (receivePayload_disregarded view hpos ⟨now, .data bytes⟩ hactivity).mono
        (fun _ _ _ _ h => by cases h) ?_
      rintro err st hst _ ⟨⟩ hcause
      exact hst (hcause ⟨base, length, hactivity⟩)

/-! ### Payload that is not taken -/

section Payload

variable {base length : UInt32} {p : PayloadPacket}

/-- What comes of payload is decided by where it lies. -/
theorem exchange_of_payload (hs : s.engine.Attentive chip)
    (hactivity : s.engine.session.activity = .transfer base length)
    (hle : bytes.length ≤ config.maxPacket) (hdecode : PayloadPacket.decode bytes = .ok p)
    {R : Exchange page σ → Prop}
    (h : match s.engine.placement p.address with
      | .ahead =>
        R ⟨⟨now, .data bytes⟩, s, .ok (), #[.progress (.resync s.engine.session.cursor)], s⟩
      | .settled => R ⟨⟨now, .data bytes⟩, s, .ok (), #[], s⟩
      | .wanted =>
        (takePayload config chip now (base + length) p).Yields (s.engine, { flash := s.flash })
          (fun _ st => R ⟨⟨now, .data bytes⟩, s, .ok (), st.2.events, ⟨st.1, st.2.flash⟩⟩)
          (fun err st => R (s.refusal ⟨now, .data bytes⟩ err st))) :
    R (s.exchange config chip ⟨now, .data bytes⟩) := by
  refine exchange_holds (hs.yields_receive (by simp [hactivity]) ?_)
  refine yields_consume.mpr ⟨fun hlong => absurd hlong (Nat.not_lt.mpr hle), fun _ => ?_⟩
  rw [hactivity]
  refine yields_receivePayload (fun _ herror => by simp [hdecode] at herror) fun packet hpacket => ?_
  obtain rfl : p = packet := by simpa [hdecode] using hpacket
  cases hplaced : s.engine.placement p.address with
  | ahead | settled | wanted =>
      rw [hplaced] at h
      exact h

/-- Payload beyond the cursor is answered with the cursor. -/
theorem exchange_resync (hs : s.engine.Attentive chip)
    (hactivity : s.engine.session.activity = .transfer base length)
    (hle : bytes.length ≤ config.maxPacket) (hdecode : PayloadPacket.decode bytes = .ok p)
    (hahead : s.engine.session.cursor < p.address) :
    let x := s.exchange config chip ⟨now, .data bytes⟩
    x.answer = .ok () ∧
      x.Disregards view s.engine.session.verdict [.resync s.engine.session.cursor] := by
  refine exchange_of_payload hs hactivity hle hdecode (R := fun x => x.answer = .ok () ∧
    x.Disregards view s.engine.session.verdict [.resync s.engine.session.cursor]) ?_
  rw [placement_ahead hahead]
  exact ⟨rfl, disregards_dropped rfl (by simp [Board.OnlyReads]) rfl (dropExpected_transfer hactivity)⟩

/-- Payload that is buffered no more is dropped. -/
theorem exchange_settled (hs : s.engine.Attentive chip)
    (hactivity : s.engine.session.activity = .transfer base length)
    (hle : bytes.length ≤ config.maxPacket) (hdecode : PayloadPacket.decode bytes = .ok p)
    (hbehind : p.address < s.engine.session.cursor)
    (hgone : ∀ start, s.engine.assembly.pendingFrom = some start → p.address < start) :
    let x := s.exchange config chip ⟨now, .data bytes⟩
    x.answer = .ok () ∧ x.Disregards view s.engine.session.verdict [] := by
  refine exchange_of_payload hs hactivity hle hdecode
    (R := fun x => x.answer = .ok () ∧ x.Disregards view s.engine.session.verdict []) ?_
  rw [placement_settled hbehind hgone]
  exact ⟨rfl, disregards_untouched (dropExpected_transfer hactivity)⟩

/-- Payload that runs past the end of the transfer does not even set the cursor back. -/
theorem exchange_overrun (hs : s.engine.Attentive chip)
    (hactivity : s.engine.session.activity = .transfer base length)
    (hle : bytes.length ≤ config.maxPacket) (hdecode : PayloadPacket.decode bytes = .ok p)
    (hsize : bytes.length < UInt32.size)
    (hwanted : p.address = s.engine.session.cursor ∨ p.address ≤ s.engine.session.cursor ∧
      ∃ start, s.engine.assembly.pendingFrom = some start ∧ start ≤ p.address)
    (hover : (base + length).toNat < p.address.toNat + p.payload.length) :
    let x := s.exchange config chip ⟨now, .data bytes⟩
    x.answer = .error (.overrun (p.address + UInt32.ofNat p.payload.length) (base + length)) ∧
      x.Disregards view s.engine.session.verdict [] := by
  have hshort := PayloadPacket.length_of_decode hdecode
  have hlength : (UInt32.ofNat p.payload.length).toNat = p.payload.length :=
    UInt32.toNat_ofNat_of_lt' (by omega)
  have hstop : stopWithin? (base + length) p.address (UInt32.ofNat p.payload.length) = none :=
    stopWithin?_of_lt (by rw [hlength]; exact hover)
  refine exchange_of_payload hs hactivity hle hdecode (R := fun x => x.answer =
    .error (.overrun (p.address + UInt32.ofNat p.payload.length) (base + length)) ∧
      x.Disregards view s.engine.session.verdict []) ?_
  rw [placement_wanted hwanted]
  exact yields_takePayload (fun _ => ⟨rfl, disregards_untouched (dropExpected_transfer hactivity)⟩)
    fun stop h => by simp [hstop] at h

end Payload

/-- Data that is refused, but by a call made for payload, and payload that is answered with the cursor
or dropped leave everything but what is awaited and the verdict as it was, whatever came before. In
particular payload that would go back and runs past the end of the transfer leaves the cursor in
place. -/
theorem disregarded_data_has_no_effect (config : Config) (chip : NorFlash σ) (view : NorFlash.View σ)
    (hpos : 0 < page) (inert : chip.Inert view) (flash : σ) (past : List Arrival)
    (sound : view.Sound ((⟨{}, flash⟩ : Snapshot page σ).run config chip past).flash) (now : UInt64)
    (bytes : Bytes) (hsize : bytes.length < UInt32.size) :
    let s := (⟨{}, flash⟩ : Snapshot page σ).run config chip past
    let x := s.exchange config chip ⟨now, .data bytes⟩
    (∀ err, x.answer = .error err →
      ((∃ base length, s.engine.session.activity = .transfer base length) → ¬err.Interrupts) →
        x.DisregardsFor view err) ∧
    ∀ base length p, s.engine.session.activity = .transfer base length →
      bytes.length ≤ config.maxPacket → PayloadPacket.decode bytes = .ok p →
        (s.engine.session.cursor < p.address →
          x.answer = .ok () ∧
            x.Disregards view s.engine.session.verdict [.resync s.engine.session.cursor]) ∧
        (p.address < s.engine.session.cursor →
          (∀ start, s.engine.assembly.pendingFrom = some start → p.address < start) →
            x.answer = .ok () ∧ x.Disregards view s.engine.session.verdict []) ∧
        ((p.address = s.engine.session.cursor ∨ p.address ≤ s.engine.session.cursor ∧
            ∃ start, s.engine.assembly.pendingFrom = some start ∧ start ≤ p.address) →
          (base + length).toNat < p.address.toNat + p.payload.length →
            x.answer =
                .error (.overrun (p.address + UInt32.ofNat p.payload.length) (base + length)) ∧
              x.Disregards view s.engine.session.verdict []) := by
  have hs : ((⟨{}, flash⟩ : Snapshot page σ).run config chip past).engine.Attentive chip :=
    run_attentive hpos flash past
  refine ⟨fun _ => exchange_refused hpos inert sound hs, fun base length p hactivity hle hdecode => ?_⟩
  exact ⟨exchange_resync hs hactivity hle hdecode, exchange_settled hs hactivity hle hdecode,
    exchange_overrun hs hactivity hle hdecode hsize⟩

end Snapshot

/-! ### Going back too far -/

namespace SmallDevice

/-- The first half of a block of zeros. -/
def halfway : List Arrival :=
  [command { command := .data, length := 16, address := 48 },
    data (PayloadPacket.encode { address := 48, payload := List.replicate 8 0 })]

/-- A block of zeros from the middle of the transfer on, which does not fit into it. -/
def excess : PayloadPacket := { address := 52, payload := List.replicate 16 0 }

/-- What comes of it after the first half. -/
def exceeding : Exchange 16 FlashMemory := next halfway (data excess.encode)

end SmallDevice

open SmallDevice in
theorem disregarded_data_has_no_effect_small :
    SmallDevice.chip.Inert FlashMemory.faultyView ∧ excess.encode.length < UInt32.size ∧
      exceeding.before.engine.session.cursor = 56 ∧
      exceeding.answer = .error (.overrun 68 64) ∧
      exceeding.Disregards FlashMemory.faultyView exceeding.before.engine.session.verdict [] := by
  have hinert : SmallDevice.chip.Inert FlashMemory.faultyView := (FlashMemory.chip_failsafe 16).toInert
  have hsize : excess.encode.length < UInt32.size := by decide
  have hactivity : (run halfway).engine.session.activity = .transfer 48 16 := by decide +kernel
  have hcursor : (run halfway).engine.session.cursor = 56 := by decide +kernel
  have hstart : (run halfway).engine.assembly.pendingFrom = some 48 := by decide +kernel
  have hback : excess.address ≤ (run halfway).engine.session.cursor ∧
      ∃ start, (run halfway).engine.assembly.pendingFrom = some start ∧ start ≤ excess.address := by
    rw [hcursor, hstart]
    exact ⟨by decide, 48, rfl, by decide⟩
  have h := Snapshot.disregarded_data_has_no_effect SmallDevice.config SmallDevice.chip
    FlashMemory.faultyView (by decide : 0 < 16) hinert flash halfway trivial 0 excess.encode hsize
  rw [exceeding, next, Snapshot.exchange_before, run, start]
  rw [run, start] at hactivity hcursor hback
  exact ⟨hinert, hsize, hcursor,
    (h.2 48 16 excess hactivity (by decide) rfl).2.2 (Or.inr hback) (by decide)⟩

end FirmwareUpdate
