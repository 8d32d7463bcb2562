import FirmwareUpdate.Proofs.Engine.Latch
import FirmwareUpdate.Proofs.Engine.Position
import FirmwareUpdate.Proofs.Engine.Transfer

/-!
# What reports tell

Figures are reported once for every transfer that is complete and once for every ping that is accepted.
They tell how far the cursor is past the start of the last transfer that was announced, which is never
further than that transfer is long, and how long ago it was accepted.
-/

namespace FirmwareUpdate

variable {page : Nat} {σ : Type} {config : Config} {chip : NorFlash σ}

/-! ### What is reported, and what was announced -/

/-- The figures that an event reports, if it is a report. -/
def Event.figures? : Event → Option Throughput
  | .report figures => some figures
  | _ => none

/-- The figures reported, first to last. -/
def Event.reports (events : Array Event) : List Throughput := events.toList.filterMap figures?

@[simp] theorem Event.reports_empty : reports #[] = [] := rfl

@[simp] theorem Event.reports_push (events : Array Event) (event : Event) :
    reports (events.push event) = reports events ++ event.figures?.toList := by
  cases h : event.figures? <;> simp [reports, h]

/-- Flash calls report nothing. -/
theorem Board.call_keeps_reports {α : Type} (record : FlashCall) (attempt : EStateM FlashError σ α)
    (figures : List Throughput) :
    (call record attempt).Keeps fun board => Event.reports board.events = figures := by
  intro board h
  exact yields_call (fun _ _ _ => by simpa [Event.figures?] using h)
    fun _ _ _ => by simpa [Event.figures?] using h

/-- A transfer as it was announced: its length, and what the clock showed when it was accepted. -/
structure Announcement where
  length : UInt16
  acceptedAt : UInt64
deriving DecidableEq, Repr

/-- The last transfer announced in a session, once a command was accepted. -/
def ControlPacket.announce (p : ControlPacket) (now : UInt64) (latest : Option Announcement) :
    Option Announcement :=
  match p.command with
  | .restart => none
  | .data => some ⟨p.length, now⟩
  | _ => latest

namespace Announcement

/-- The length of the last transfer announced. -/
def declared (latest : Option Announcement) : Nat := (latest.map (·.length.toNat)).getD 0

/-- When the last transfer announced was accepted. -/
def startedAt (latest : Option Announcement) : UInt64 := (latest.map (·.acceptedAt)).getD 0

end Announcement

/-! ### Pending bytes -/

/-- A span that is extended begins where it did, or with the bytes laid in. -/
theorem UnitBuffer.start_extend (u : UnitBuffer page) (pending : Option Span) (address : UInt32)
    (count : Nat) :
    u.base + UInt32.ofNat (Span.extend pending (u.spanAt address count)).start = address ∨
      ∃ s, pending = some s ∧ (Span.extend pending (u.spanAt address count)).start = s.start := by
  have hoffset : u.base + UInt32.ofNat (address - u.base).toNat = address := by
    rw [UInt32.ofNat_toNat]
    grind
  cases pending with
  | none => exact Or.inl hoffset
  | some s =>
      rcases Nat.le_total s.start (address - u.base).toNat with hle | hle
      · exact Or.inr ⟨s, rfl, Nat.min_eq_left hle⟩
      · refine Or.inl ?_
        simp only [Span.extend, Span.hull, spanAt, Nat.min_eq_right hle, hoffset]

namespace Assembly

open Attempt

variable {key : Aes256.Key} {a : Assembly page} {board : Board σ} {base : Nat}

/-- No byte before the address is pending. -/
def PendsFrom (base : Nat) (a : Assembly page) : Prop :=
  ∀ start, a.pendingFrom = some start → base ≤ start.toNat

theorem NothingPending.pendsFrom (h : a.NothingPending) : a.PendsFrom base := by
  intro start hstart
  simp [pendingFrom_of_nothing h] at hstart

theorem seek_pendsFrom (h : a.PendsFrom base) {address : UInt32} :
    (seek key chip address).Yields (a, board) (fun _ st => st.1.PendsFrom base)
      fun _ st => st.1.PendsFrom base := by
  refine yields_seek.mpr ⟨fun _ => h, fun _ => ?_⟩
  refine commit_nothingPending.mono (fun _ st hnothing => ?_) fun _ _ hnothing => hnothing.pendsFrom
  exact (load_nothingPending hnothing).mono (fun _ _ hnothing => hnothing.pendsFrom)
    fun _ _ hnothing => hnothing.pendsFrom

theorem PendsFrom.insert {u : UnitBuffer page} (h : a.PendsFrom base) (hbuffer : a.buffer = some u)
    {address : UInt32} (hle : base ≤ address.toNat) (bytes : Bytes) :
    (a.lay u address bytes).PendsFrom base := by
  intro start hstart
  obtain ⟨_, _, ⟨⟩, ⟨⟩, rfl⟩ := pendingFrom_eq_some hstart
  rcases u.start_extend a.pending address bytes.length with hfrom | ⟨s, hs, hfrom⟩
  · rw [UnitBuffer.base_insert, hfrom]
    exact hle
  · rw [UnitBuffer.base_insert, hfrom]
    exact h _ (pendingFrom_of_pending hbuffer hs)

theorem seek_keeps_reports (figures : List Throughput) (address : UInt32) :
    (seek key chip address).Keeps
      fun st : Assembly page × Board σ => Event.reports st.2.events = figures :=
  seek_keeps (fun _ _ => Board.call_keeps_reports _ _ _) (fun _ _ => Board.call_keeps_reports _ _ _)
    fun _ _ => Board.call_keeps_reports _ _ _

theorem commit_keeps_reports (figures : List Throughput) :
    (commit key chip).Keeps
      fun st : Assembly page × Board σ => Event.reports st.2.events = figures :=
  commit_keeps (fun _ _ => Board.call_keeps_reports _ _ _) fun _ _ => Board.call_keeps_reports _ _ _

/-- The cursor is in the range from `base` up to `limit`, nothing before it is pending, and nothing was
reported. -/
structure Silent (base limit cursor : Nat) (st : Assembly page × Board σ) : Prop where
  base_le : base ≤ cursor
  le_limit : cursor ≤ limit
  pendsFrom : st.1.PendsFrom base
  reports : Event.reports st.2.events = []

variable {limit cursor : Nat}

theorem seek_silent (h : Silent base limit cursor (a, board)) {address : UInt32} :
    (seek key chip address).Yields (a, board)
      (fun _ st => Silent base limit cursor st ∧ st.1.base? = some (Address.unitBase page address))
      fun _ st => Silent base limit cursor st := by
  refine ((seek_pendsFrom h.pendsFrom).and
    ((seek_keeps_reports [] address _ h.reports).and seek_interrupts)).mono
      (fun _ st hst => ?_) fun _ st hst => ?_
  · exact ⟨⟨h.base_le, h.le_limit, hst.1, hst.2.1⟩, hst.2.2⟩
  · exact ⟨h.base_le, h.le_limit, hst.1, hst.2.1⟩

theorem commit_silent (h : Silent base limit cursor (a, board)) :
    (commit key chip).Yields (a, board) (fun _ st => Silent base limit cursor st)
      fun _ st => Silent base limit cursor st := by
  refine (commit_nothingPending.and (commit_keeps_reports [] _ h.reports)).mono
    (fun _ st hst => ?_) fun _ st hst => ?_
  · exact ⟨h.base_le, h.le_limit, hst.1.pendsFrom, hst.2⟩
  · exact ⟨h.base_le, h.le_limit, hst.1.pendsFrom, hst.2⟩

theorem insert_silent (hpos : 0 < page) {address : UInt32}
    (h : Silent base limit address.toNat (a, board))
    (hthere : a.base? = some (Address.unitBase page address)) {bytes : Bytes} (hbytes : 0 < bytes.length)
    (hend : address.toNat + bytes.length ≤ limit) :
    (insert address bytes : Attempt (Assembly page × Board σ) Nat).Yields (a, board)
      (fun taken st => 0 < taken ∧ taken ≤ bytes.length ∧
        Silent base limit (address.toNat + taken) st)
      fun _ _ => False := by
  obtain ⟨u, hu, hbase⟩ := Option.map_eq_some_iff.mp hthere
  have hcontains := UnitBuffer.contains_of_base hpos hbase
  have hroom := u.room_le address bytes.length
  have hlow := h.base_le
  have htaken : 0 < u.room address bytes.length := by
    have hinside := hcontains.2
    rw [UnitBuffer.room]
    omega
  rw [yields_insert_of_contains hu hcontains]
  exact ⟨htaken, hroom.1, by omega, by omega, h.pendsFrom.insert hu hlow bytes, h.reports⟩

end Assembly

/-! ### Where the session stands -/

namespace Session

variable {latest : Option Announcement} {a a' : Assembly page} {s s' : Session}

/-- The cursor is in the range of the last transfer announced, nothing before that range is pending, and
a transfer under way is the one announced. -/
structure Located (config : Config) (latest : Option Announcement) (a : Assembly page) (s : Session) :
    Prop where
  base_le : s.transferBase.toNat ≤ s.cursor.toNat
  le_declared : s.cursor.toNat ≤ s.transferBase.toNat + Announcement.declared latest
  startedMs : s.startedMs = Announcement.startedAt latest
  pendsFrom : a.PendsFrom s.transferBase.toNat
  transfer : ∀ {base length}, s.activity = .transfer base length →
    s.transferBase = base ∧ config.Admits base length ∧
      ∃ announcement, latest = some announcement ∧ length = announcement.length.toUInt32

theorem located_fresh (h : a.NothingPending) : ({} : Session).Located config none a where
  base_le := Nat.le_refl _
  le_declared := Nat.le_refl _
  startedMs := rfl
  pendsFrom := h.pendsFrom
  transfer h := by simp at h

/-- A transfer that was just accepted is at its start. -/
theorem located_beginTransfer {address : UInt32} {length : UInt16} (now : UInt64)
    (hadmits : config.Admits address length.toUInt32) (h : a.NothingPending) :
    (s.beginTransfer now address length.toUInt32).Located config (some ⟨length, now⟩) a where
  base_le := Nat.le_refl _
  le_declared := Nat.le_add_right _ _
  startedMs := rfl
  pendsFrom := h.pendsFrom
  transfer h := by
    obtain ⟨rfl, rfl⟩ := Activity.transfer.inj h
    exact ⟨rfl, hadmits, _, rfl, rfl⟩

/-- Besides what is pending, all that matters is where and when the last transfer began, and how far it
has come. -/
theorem Located.congr (h : s.Located config latest a) (hbase : s'.transferBase = s.transferBase)
    (hcursor : s'.cursor = s.cursor) (hstarted : s'.startedMs = s.startedMs)
    (hpends : a'.PendsFrom s.transferBase.toNat)
    (hactivity : ∀ base length, s'.activity = .transfer base length →
      s.activity = .transfer base length) : s'.Located config latest a' where
  base_le := by
    rw [hbase, hcursor]
    exact h.base_le
  le_declared := by
    rw [hbase, hcursor]
    exact h.le_declared
  startedMs := hstarted.trans h.startedMs
  pendsFrom := by rwa [hbase]
  transfer htransfer := by
    rw [hbase]
    exact h.transfer (hactivity _ _ htransfer)

end Session

/-- The figures tell where the cursor is, relative to the last transfer announced, and how long ago that
was accepted. A clock that went back counts as no time. -/
structure Throughput.Tells (latest : Option Announcement) (now : UInt64) (s : Session)
    (figures : Throughput) : Prop where
  progress : s.transferBase.toNat + figures.progress.toNat = s.cursor.toNat
  le_declared : figures.progress.toNat ≤ Announcement.declared latest
  elapsedMs : figures.elapsedMs.toNat = now.toNat - (Announcement.startedAt latest).toNat

theorem Session.Located.tells {latest : Option Announcement} {a : Assembly page} {s : Session}
    (h : s.Located config latest a) (now : UInt64) (expected : UInt32) :
    (s.throughput now expected).Tells latest now s := by
  have hbase := h.base_le
  have hdeclared := h.le_declared
  have hprogress : (s.throughput now expected).progress.toNat =
      s.cursor.toNat - s.transferBase.toNat :=
    UInt32.toNat_sub_of_le _ _ (UInt32.le_iff_toNat_le.mpr hbase)
  refine ⟨by omega, by omega, ?_⟩
  rw [← h.startedMs, Session.throughput]
  split
  · next hle => exact UInt64.toNat_sub_of_le _ _ hle
  · next hbehind =>
      rw [UInt64.le_iff_toNat_le] at hbehind
      exact (Nat.sub_eq_zero_of_le (Nat.le_of_not_le hbehind)).symm

namespace Engine

open Attempt

variable {now : UInt64} {e : Engine page} {board : Board σ} {latest : Option Announcement}

/-- Payload keeps the cursor in the range of its transfer, and copying it reports nothing. -/
theorem silent_carries (config : Config) (chip : NorFlash σ) (hpos : 0 < page) (base limit : Nat) :
    Carries config chip limit (fun _ _ => True)
      (Assembly.Silent base limit : Nat → Assembly page × Board σ → Prop)
      (Assembly.Silent base limit limit) fun _ => Assembly.Silent base limit where
  rest _ _ := trivial
  rewind hat hstart hlow hhigh :=
    { hat with
      base_le := Nat.le_trans (hat.pendsFrom _ hstart) hlow
      le_limit := Nat.le_trans hhigh hat.le_limit }
  seek hat _ := Assembly.seek_silent hat
  insert hat hthere hbytes hend _ := Assembly.insert_silent hpos hat hthere hbytes hend
  commit hat := Assembly.commit_silent hat

/-- A command that is accepted reports nothing, unless it is a ping. -/
theorem execute_located (h : e.session.Located config latest e.assembly) (hconsistent : e.Consistent)
    (hsilent : Event.reports board.events = []) {packet : ControlPacket} :
    (execute config chip now packet).Yields (e, board)
      (fun _ st => st.1.session.Located config (packet.announce now latest) st.1.assembly ∧
        Event.reports st.2.events =
          if packet.command = .ping then [st.1.session.throughput now packet.length.toUInt32] else [])
      fun _ st => st.1.session.Located config latest st.1.assembly ∧
        Event.reports st.2.events = [] := by
  apply yields_execute (fun _ _ => ⟨h, hsilent⟩)
  simp only [ControlPacket.announce]
  cases packet.command with
  | restart =>
      exact ⟨Session.located_fresh (Assembly.nothingPending_discard _),
        by simp [hsilent, Event.figures?]⟩
  | data =>
      intro hidle _ hadmits _
      have hnothing := hconsistent.nothingPending (by simp [hidle])
      refine ((Assembly.seek_nothingPending hnothing).and
        (Assembly.seek_keeps_reports [] _ (e.assembly, board) hsilent)).mono
          (fun _ st hst => ?_) fun _ st hst => ?_
      · exact ⟨Session.located_beginTransfer now hadmits hst.1, hst.2⟩
      · exact ⟨h.congr rfl rfl rfl hst.1.pendsFrom fun _ _ => id, hst.2⟩
  | vector => exact fun _ => ⟨h.congr rfl rfl rfl h.pendsFrom (by simp), hsilent⟩
  | digest => exact fun _ => ⟨h.congr rfl rfl rfl h.pendsFrom (by simp), hsilent⟩
  | done =>
      intro _ _
      have hdiscarded : e.session.Located config latest e.assembly.discard :=
        h.congr rfl rfl rfl (Assembly.nothingPending_discard _).pendsFrom fun _ _ => id
      have hkept : (Confirmation.run chip config.appBase).Keeps
          fun board => Event.reports board.events = [] :=
        confirmation_keeps (fun _ _ => Board.call_keeps_reports _ _ _) _
          (Board.call_keeps_reports _ _ _)
      exact (hkept board hsilent).mono (fun _ _ hst => ⟨hdiscarded, hst⟩)
        fun _ _ hst => ⟨hdiscarded, hst⟩
  | reset => exact ⟨h, hsilent⟩
  | ping => exact ⟨h, by simp [hsilent, Event.figures?]⟩

/-- Payload reports nothing, unless it ends the transfer: then it is reported in full. -/
theorem receivePayload_located (hpos : 0 < page) {base length : UInt32}
    (h : e.session.Located config latest e.assembly)
    (hactivity : e.session.activity = .transfer base length)
    (hsilent : Event.reports board.events = []) {bytes : Bytes} (hsize : bytes.length < UInt32.size) :
    (receivePayload config chip now (base + length) bytes).Yields (e, board)
      (fun _ st => st.1.session.Located config latest st.1.assembly ∧
        (st.1.session.activity = .transfer base length ∧ Event.reports st.2.events = [] ∨
          st.1.session.activity = .idle ∧
            st.1.session.cursor.toNat = st.1.session.transferBase.toNat + length.toNat ∧
            Event.reports st.2.events = [st.1.session.throughput now length]))
      fun _ st => st.1.session.Located config latest st.1.assembly ∧
        Event.reports st.2.events = [] := by
  obtain ⟨hbase, hadmits, announcement, hlatest, hlength⟩ := h.transfer hactivity
  have hlimit := toNat_limit hadmits
  have hdeclared : Announcement.declared latest = length.toNat := by
    simp [hlatest, hlength, Announcement.declared]
  have hat : Assembly.Silent base.toNat (base + length).toNat e.session.cursor.toNat
      (e.assembly, board) := by
    rw [← hbase] at hlimit ⊢
    exact ⟨h.base_le, by rw [hlimit, ← hdeclared]; exact h.le_declared, h.pendsFrom, hsilent⟩
  have hmoved {assembly : Assembly page} {cursor : UInt32} {board' : Board σ} (count : Nat)
      (hat' : Assembly.Silent base.toNat (base + length).toNat cursor.toNat (assembly, board')) :
      (e.moved assembly cursor count).session.Located config latest assembly := by
    have hlow := hat'.base_le
    have hhigh := hat'.le_limit
    have hpends := hat'.pendsFrom
    rw [hlimit, ← hdeclared] at hhigh
    rw [← hbase] at hlow hhigh hpends
    exact ⟨hlow, hhigh, h.startedMs, hpends, h.transfer⟩
  refine yields_receivePayload (fun _ _ => ⟨h, hsilent⟩) fun packet hpacket => ?_
  split
  · exact ⟨h, Or.inl ⟨hactivity, by simp [hsilent, Event.figures?]⟩⟩
  · exact ⟨h, Or.inl ⟨hactivity, hsilent⟩⟩
  · next hplacement =>
      have hshort := PayloadPacket.length_of_decode hpacket
      apply takePayload_carries (silent_carries config chip hpos base.toNat (base + length).toNat) hat
        hplacement (by omega) (fun _ _ => trivial)
      case hoverrun => exact fun _ _ => ⟨h, hsilent⟩
      case hmoved =>
        intro assembly cursor board' _ _ hat'
        exact ⟨hmoved _ hat', Or.inl ⟨hactivity, hat'.reports⟩⟩
      case hended =>
        intro assembly board' _ hat'
        have hwhole : base + length - e.session.transferBase = length := by
          rw [hbase]
          grind
        refine ⟨(hmoved packet.payload.length hat').congr rfl rfl rfl
          (hmoved packet.payload.length hat').pendsFrom (by simp [rested]), Or.inr ⟨rfl, ?_, ?_⟩⟩
        · rw [← hbase] at hlimit
          simpa [rested, moved, hbase] using hlimit
        · rw [hwhole, Event.reports_push, hat'.reports]
          rfl
      case hhalts =>
        intro err assembly cursor board' hat'
        exact ⟨hmoved _ hat', hat'.reports⟩

/-- A data packet reports nothing, unless it ends a transfer. -/
theorem consume_located (hpos : 0 < page) (h : e.session.Located config latest e.assembly)
    (hsilent : Event.reports board.events = []) {bytes : Bytes} (hsize : bytes.length < UInt32.size) :
    (consume config chip now bytes).Yields (e, board)
      (fun _ st => st.1.session.Located config latest st.1.assembly ∧
        ((∀ base length, e.session.activity = .transfer base length →
            st.1.session.activity ≠ .idle) ∧ Event.reports st.2.events = [] ∨
          ∃ base length, e.session.activity = .transfer base length ∧
            st.1.session.activity = .idle ∧
            st.1.session.cursor.toNat = st.1.session.transferBase.toNat + length.toNat ∧
            Event.reports st.2.events = [st.1.session.throughput now length]))
      fun _ st => st.1.session.Located config latest st.1.assembly ∧
        Event.reports st.2.events = [] := by
  refine yields_consume.mpr ⟨fun _ => ⟨h.congr rfl rfl rfl h.pendsFrom ?_, hsilent⟩, fun _ => ?_⟩
  · intro base length hactivity
    cases hbefore : e.session.activity <;> simp [hbefore, dropExpected] at hactivity ⊢
    exact hactivity
  have hrested : ({ e.session with activity := .idle } : Session).Located config latest e.assembly :=
    h.congr rfl rfl rfl h.pendsFrom (by simp)
  split
  · exact ⟨h, hsilent⟩
  · next hactivity =>
      refine yields_receiveVector (fun _ => ⟨hrested, hsilent⟩) fun vector _ => ?_
      exact ⟨hrested.congr rfl rfl rfl hrested.pendsFrom fun _ _ => id,
        Or.inl ⟨by simp [hactivity], hsilent⟩⟩
  · next hactivity =>
      refine yields_receiveDigest (fun _ => ⟨hrested, hsilent⟩) fun _ _ => yields_checkDigest.mpr ?_
      refine Yields.mono (digest_keeps (fun _ _ => Board.call_keeps_reports _ _ []) _ _ board hsilent)
        (fun _ board' hst => ⟨fun _ => ⟨?_, ?_⟩, fun _ => ⟨?_, ?_⟩⟩) fun _ _ hst => ⟨hrested, hst⟩
      · exact hrested.congr rfl rfl rfl hrested.pendsFrom fun _ _ => id
      · exact Or.inl ⟨by simp [hactivity], hst⟩
      · exact hrested.congr rfl rfl rfl hrested.pendsFrom fun _ _ => id
      · simpa [Event.figures?] using hst
  · next hactivity =>
      refine (receivePayload_located hpos h hactivity hsilent hsize).mono (fun _ st hst => ?_)
        fun _ _ hst => hst
      obtain ⟨hlocated, ⟨hbusy, hreports⟩ | ⟨hidle, hcursor, hreports⟩⟩ := hst
      · exact ⟨hlocated, Or.inl ⟨by simp [hbusy], hreports⟩⟩
      · exact ⟨hlocated, Or.inr ⟨_, _, hactivity, hidle, hcursor, hreports⟩⟩

end Engine

/-! ### Exchanges -/

namespace Exchange

variable {x : Exchange page σ} {latest : Option Announcement}

/-- The figures that were reported, first to last. -/
def reports (x : Exchange page σ) : List Throughput := Event.reports x.events

/-- The packet was accepted as the last payload of a transfer. -/
def EndsTransfer (x : Exchange page σ) : Prop :=
  x.answer = .ok () ∧ x.CarriesPayload ∧ x.after.engine.session.activity = .idle

/-- The last transfer announced in a session, after one more packet. -/
def announce (latest : Option Announcement) (x : Exchange page σ) : Option Announcement :=
  match x.answer, x.arrival.packet.command? with
  | .ok _, some p => p.announce x.arrival.now latest
  | _, _ => latest

/-- The last transfer announced in the session that packets have led to. -/
def announced (history : List (Exchange page σ)) : Option Announcement :=
  history.foldl announce none

/-- What is reported about a packet that comes after some transfer was announced. -/
structure Reports (latest : Option Announcement) (x : Exchange page σ) : Prop where
  once : x.EndsTransfer ∨ x.Accepts .ping → ∃ figures, x.reports = [figures]
  never : ¬(x.EndsTransfer ∨ x.Accepts .ping) → x.reports = []
  whole : x.EndsTransfer → ∃ announcement base, latest = some announcement ∧
    x.before.engine.session.activity = .transfer base announcement.length.toUInt32 ∧
      ∀ figures ∈ x.reports, figures.expected = announcement.length.toUInt32 ∧
        figures.progress = announcement.length.toUInt32
  tells : ∀ figures ∈ x.reports, figures.Tells latest x.arrival.now x.after.engine.session

theorem reports_of_silent (hreports : x.reports = []) (hends : ¬x.EndsTransfer)
    (hping : ¬x.Accepts .ping) : x.Reports latest where
  once h := (h.elim hends hping).elim
  never _ := hreports
  whole h := absurd h hends
  tells figures hmem := by simp [hreports] at hmem

theorem announce_of_command {p : ControlPacket} (haccepted : x.answer = .ok ())
    (hcommand : x.arrival.packet.command? = some p) :
    x.announce latest = p.announce x.arrival.now latest := by
  simp only [announce, haccepted, hcommand]

theorem announce_of_data (hcommand : x.arrival.packet.command? = none) :
    x.announce latest = latest := by
  unfold announce
  split <;> simp_all

theorem not_endsTransfer_of_command {p : ControlPacket}
    (hcommand : x.arrival.packet.command? = some p) : ¬x.EndsTransfer := by
  rintro ⟨-, ⟨⟨bytes, hpacket⟩, -⟩, -⟩
  simp [hpacket, Packet.command?] at hcommand

/-- A packet that was refused reports nothing and announces nothing. -/
theorem reports_of_error {err : UpdateError} (hanswer : x.answer = .error err)
    (hlocated : x.after.engine.session.Located config latest x.after.engine.assembly)
    (hreports : x.reports = []) :
    x.Reports latest ∧
      x.after.engine.session.Located config (x.announce latest) x.after.engine.assembly := by
  have hsame : x.announce latest = latest := by simp [announce, hanswer]
  rw [hsame]
  refine ⟨reports_of_silent hreports ?_ ?_, hlocated⟩
  · rintro ⟨haccepted, -⟩
    simp [hanswer] at haccepted
  · rintro ⟨haccepted, -⟩
    simp [hanswer] at haccepted

theorem reports_of_ping {expected : UInt32} (haccepts : x.Accepts .ping)
    (hlocated : x.after.engine.session.Located config latest x.after.engine.assembly)
    (hreports : x.reports = [x.after.engine.session.throughput x.arrival.now expected]) :
    x.Reports latest where
  once _ := ⟨_, hreports⟩
  never h := absurd (Or.inr haccepts) h
  whole h := by
    obtain ⟨-, p, hcommand, -⟩ := haccepts
    exact absurd h (not_endsTransfer_of_command hcommand)
  tells figures hmem := by
    rw [hreports, List.mem_singleton] at hmem
    rw [hmem]
    exact hlocated.tells _ _

theorem reports_of_ended {base : UInt32} {announcement : Announcement} (hends : x.EndsTransfer)
    (hlocated : x.after.engine.session.Located config latest x.after.engine.assembly)
    (hlatest : latest = some announcement)
    (hactivity : x.before.engine.session.activity =
      .transfer base announcement.length.toUInt32)
    (hcursor : x.after.engine.session.cursor.toNat = x.after.engine.session.transferBase.toNat +
      announcement.length.toUInt32.toNat)
    (hreports : x.reports = [x.after.engine.session.throughput x.arrival.now
      announcement.length.toUInt32]) : x.Reports latest := by
  have htells := hlocated.tells x.arrival.now announcement.length.toUInt32
  have hprogress := htells.progress
  constructor
  case once => exact fun _ => ⟨_, hreports⟩
  case never => exact fun h => absurd (Or.inl hends) h
  case whole =>
    refine fun _ => ⟨announcement, base, hlatest, hactivity, fun figures hmem => ?_⟩
    rw [hreports, List.mem_singleton] at hmem
    rw [hmem]
    refine ⟨rfl, UInt32.toNat_inj.mp ?_⟩
    omega
  case tells =>
    intro figures hmem
    rw [hreports, List.mem_singleton] at hmem
    rw [hmem]
    exact htells

end Exchange

namespace Snapshot

variable {s : Snapshot page σ} {a : Arrival} {latest : Option Announcement}

/-- The session stands as the last transfer announced has it, and is consistent. -/
def Located (config : Config) (latest : Option Announcement) (s : Snapshot page σ) : Prop :=
  s.engine.session.Located config latest s.engine.assembly ∧ s.engine.Consistent

theorem located_start (flash : σ) : (⟨{}, flash⟩ : Snapshot page σ).Located config none :=
  ⟨Session.located_fresh rfl, Engine.consistent_fresh⟩

theorem exchange_reports (hpos : 0 < page) (h : s.Located config latest) (hsize : a.packet.Sized) :
    (s.exchange config chip a).Reports latest ∧
      (s.exchange config chip a).after.engine.session.Located config
        ((s.exchange config chip a).announce latest)
        (s.exchange config chip a).after.engine.assembly := by
  obtain ⟨hlocated, hconsistent⟩ := h
  apply exchange_holds (R := fun x => x.Reports latest ∧
    x.after.engine.session.Located config (x.announce latest) x.after.engine.assembly)
  refine Engine.yields_receive.mpr ⟨fun _ => Exchange.reports_of_error rfl hlocated rfl,
    fun _ _ => Exchange.reports_of_error rfl hlocated rfl, fun _ _ => ?_⟩
  obtain ⟨now, packet⟩ := a
  cases packet with
  | control bytes =>
      refine Engine.yields_handle_control (fun _ _ => Exchange.reports_of_error rfl hlocated rfl)
        fun p hdecode => ?_
      have hcommand : (Packet.control bytes).command? = some p := by
        simp [Packet.command?, hdecode, Except.toOption]
      refine (Engine.execute_located hlocated hconsistent rfl).mono (fun _ st hst => ?_)
        fun _ st hst => Exchange.reports_of_error rfl hst.1 hst.2
      obtain ⟨hlocated', hreports⟩ := hst
      rw [Exchange.announce_of_command rfl hcommand]
      refine ⟨?_, hlocated'⟩
      by_cases hping : p.command = .ping
      · rw [if_pos hping] at hreports
        simp only [ControlPacket.announce, hping] at hlocated'
        exact Exchange.reports_of_ping ⟨rfl, p, hcommand, hping⟩ hlocated' hreports
      · rw [if_neg hping] at hreports
        refine Exchange.reports_of_silent hreports (Exchange.not_endsTransfer_of_command hcommand) ?_
        rintro ⟨-, q, hasked, hother⟩
        obtain rfl : p = q := Option.some.inj (hcommand.symm.trans hasked)
        exact hping hother
  | data bytes =>
      refine (Engine.consume_located hpos hlocated rfl hsize).mono (fun _ st hst => ?_)
        fun _ st hst => Exchange.reports_of_error rfl hst.1 hst.2
      obtain ⟨hlocated', houtcome⟩ := hst
      rw [Exchange.announce_of_data rfl]
      refine ⟨?_, hlocated'⟩
      rcases houtcome with ⟨hbusy, hreports⟩ | ⟨base, length, hactivity, hidle, hcursor, hreports⟩
      · refine Exchange.reports_of_silent hreports ?_ ?_
        · rintro ⟨-, ⟨-, base, length, hactivity⟩, hidle⟩
          exact hbusy base length hactivity hidle
        · rintro ⟨-, p, hcommand, -⟩
          simp [Packet.command?] at hcommand
      · obtain ⟨-, -, announcement, hlatest, rfl⟩ := hlocated.transfer hactivity
        exact Exchange.reports_of_ended ⟨rfl, ⟨⟨bytes, rfl⟩, _, _, hactivity⟩, hidle⟩ hlocated' hlatest
          hactivity hcursor hreports

/-- Every packet leaves the session where the last transfer announced has it. -/
theorem run_located (hpos : 0 < page) (h : s.Located config latest) {past : List Arrival}
    (hsized : ∀ b ∈ past, b.packet.Sized) :
    (s.run config chip past).Located config
      ((s.exchanges config chip past).foldl Exchange.announce latest) := by
  induction past generalizing s latest with
  | nil => exact h
  | cons a past ih =>
      rw [List.forall_mem_cons] at hsized
      exact ih ⟨(exchange_reports hpos h hsized.1).2, exchange_consistent h.2⟩ hsized.2

/-- Figures are reported once for each transfer that is complete and once for each ping that is
accepted, and never else. Those of a complete transfer have its whole length as expected and as progress.
In all of them the progress is how far the cursor is past the start of the last transfer accepted in the
session, which was announced to be at least that long, and the time is counted from when it was
accepted. -/
theorem reports_tell_position (config : Config) (chip : NorFlash σ) (hpos : 0 < page) (flash : σ)
    (past : List Arrival) (hsized : ∀ b ∈ past, b.packet.Sized) (a : Arrival)
    (hsize : a.packet.Sized) :
    let start : Snapshot page σ := ⟨{}, flash⟩
    ((start.run config chip past).exchange config chip a).Reports
      (Exchange.announced (start.exchanges config chip past)) :=
  (exchange_reports hpos (run_located hpos
    (located_start flash) hsized) hsize).1

end Snapshot

/-! ### A transfer that is asked about halfway -/

namespace SmallDevice

/-- A transfer of one block and the first half of it, some time later. -/
def firstHalf : List Arrival :=
  [{ transfer with now := 5 },
    { data (PayloadPacket.encode { address := 48, payload := List.replicate 8 0 }) with now := 9 }]

/-- A ping that says that 12 bytes were sent. -/
def inquiry : Arrival := { command { command := .ping, length := 12 } with now := 11 }

/-- The second half of the block, at a time before the transfer was accepted. -/
def secondHalf : Arrival :=
  { data (PayloadPacket.encode { address := 56, payload := List.replicate 8 0 }) with now := 2 }

end SmallDevice

open SmallDevice in
theorem reports_tell_position_halfway :
    (∀ b ∈ firstHalf, b.packet.Sized) ∧ inquiry.packet.Sized ∧ secondHalf.packet.Sized ∧
      Exchange.announced (history firstHalf) = some ⟨16, 5⟩ ∧
      (next firstHalf inquiry).reports =
        [{ expected := 12, progress := 8, bytes := 8, elapsedMs := 6 }] ∧
      (next firstHalf inquiry).Reports (some ⟨16, 5⟩) ∧
      (next firstHalf secondHalf).reports =
        [{ expected := 16, progress := 16, bytes := 16, elapsedMs := 0 }] ∧
      (next firstHalf secondHalf).Reports (some ⟨16, 5⟩) := by
  have hsized : ∀ b ∈ firstHalf, b.packet.Sized := by decide +kernel
  have hannounced : Exchange.announced (history firstHalf) = some ⟨16, 5⟩ := by decide +kernel
  have h (a : Arrival) (hsize : a.packet.Sized) :
      (next firstHalf a).Reports (Exchange.announced (history firstHalf)) :=
    Snapshot.reports_tell_position SmallDevice.config SmallDevice.chip (by decide) SmallDevice.flash
      firstHalf hsized a hsize
  rw [hannounced] at h
  exact ⟨hsized, by decide, by decide +kernel, hannounced, by decide +kernel, h inquiry (by decide),
    by decide +kernel, h secondHalf (by decide +kernel)⟩

end FirmwareUpdate
