import FirmwareUpdate.Proofs.Engine.Coverage
import FirmwareUpdate.Proofs.Engine.Position
import FirmwareUpdate.Proofs.Engine.Transfer

/-!
# What a failure costs

When pending bytes cannot be programmed they are gone, and the cursor stays past them: packets that carry
them again are dropped, and the transfer completes without them. A completed transfer has programmed every
byte of its range exactly if that never happened, and then flash holds the decrypted ciphertext.
-/

namespace FirmwareUpdate

variable {page : Nat} {σ : Type} {config : Config} {chip : NorFlash σ} {view : NorFlash.View σ}

namespace Board

open Attempt

variable {board : Board σ}

/-- A programming call on the byte at an address succeeded. -/
def Programmed (board : Board σ) (address : Nat) : Prop :=
  ∃ start bytes, .flash (.write start bytes) none ∈ board.events ∧
    start.toNat ≤ address ∧ address < start.toNat + bytes.length

/-- The bytes of the range that were programmed are those from `first` up to `frontier`. -/
def Laid (base limit first frontier : Nat) (board : Board σ) : Prop :=
  first ≤ frontier ∧ ∀ address, base ≤ address → address < limit →
    (board.Programmed address ↔ first ≤ address ∧ address < frontier)

theorem programmed_push {event : Event}
    (h : ∀ start bytes, event ≠ .flash (.write start bytes) none) {flash : σ} {address : Nat} :
    Programmed ⟨flash, board.events.push event⟩ address ↔ board.Programmed address := by
  simp only [Programmed, Array.mem_push]
  constructor
  · rintro ⟨start, bytes, hmem | heq, hin⟩
    · exact ⟨start, bytes, hmem, hin⟩
    · exact absurd heq.symm (h start bytes)
  · rintro ⟨start, bytes, hmem, hin⟩
    exact ⟨start, bytes, Or.inl hmem, hin⟩

theorem programmed_push_write {start : UInt32} {bytes : Bytes} {flash : σ} {address : Nat} :
    Programmed ⟨flash, board.events.push (.flash (.write start bytes) none)⟩ address ↔
      board.Programmed address ∨ (start.toNat ≤ address ∧ address < start.toNat + bytes.length) := by
  simp only [Programmed, Array.mem_push]
  constructor
  · rintro ⟨start', bytes', hmem | heq, hin⟩
    · exact Or.inl ⟨start', bytes', hmem, hin⟩
    · cases heq
      exact Or.inr hin
  · rintro (⟨start', bytes', hmem, hin⟩ | hin)
    · exact ⟨start', bytes', Or.inl hmem, hin⟩
    · exact ⟨start, bytes, Or.inr rfl, hin⟩

variable {base limit first frontier : Nat}

theorem Laid.push (h : board.Laid base limit first frontier) {event : Event}
    (hevent : ∀ start bytes, event ≠ .flash (.write start bytes) none) {flash : σ} :
    Laid base limit first frontier ⟨flash, board.events.push event⟩ :=
  ⟨h.1, fun address hlow hhigh => (programmed_push hevent).trans (h.2 address hlow hhigh)⟩

/-- A call was refused with bytes from `frontier` up to the cursor pending: a unit that could not be read,
with nothing pending, or bytes that could not be programmed. -/
def LaidUpTo (base limit first frontier cursor : Nat) (err : UpdateError) (board : Board σ) : Prop :=
  err.Interrupts ∧ board.Laid base limit first frontier ∧
    ((board.ReadFailed ∧ frontier = cursor) ∨ (¬board.ReadFailed ∧ frontier < cursor))

/-- Every unit that is programmed continues what was programmed before. -/
theorem tracks_laid (page : Nat) (chip : NorFlash σ) (base limit first : Nat) :
    Tracks chip page base limit
      (fun frontier board => ¬board.ReadFailed ∧ board.Laid base limit first frontier)
      (LaidUpTo base limit first) where
  read {unit frontier board} _ hP := by
    refine yields_call (fun _ _ _ => ⟨not_readFailed_push hP.1 (by simp), hP.2.push (by simp)⟩)
      fun e _ _ => ⟨trivial, hP.2.push (by simp), Or.inl ⟨⟨unit, page, e, Array.mem_push_self⟩, rfl⟩⟩
  program {u stop board} hunit hstop hP := by
    have hnonempty := hunit.nonempty
    rw [Assembly.yields_reprogram]
    refine yields_call (fun _ flash _ => ?_) fun e _ _ => ⟨trivial, hP.2.push (by simp),
      Or.inr ⟨not_readFailed_push hP.1 (by simp), hnonempty⟩⟩
    let erased : Board σ := ⟨flash, board.events.push (.flash (.erase u.base stop) none)⟩
    have hreads : ¬erased.ReadFailed := not_readFailed_push hP.1 (by simp)
    have hlaid : erased.Laid base limit first (max base u.base.toNat) := hP.2.push (by simp)
    refine yields_call (fun _ _ _ => ⟨not_readFailed_push hreads (by simp), ?_⟩) fun e _ _ =>
      ⟨trivial, hlaid.push (by simp), Or.inr ⟨not_readFailed_push hreads (by simp), hnonempty⟩⟩
    have hfirst := hlaid.1
    refine ⟨by omega, fun address hlow hhigh => ?_⟩
    rw [programmed_push_write, hlaid.2 address hlow hhigh, Vector.length_toList]
    omega
  unaligned hunit _ hP := ⟨trivial, hP.2, Or.inr ⟨hP.1, hunit.nonempty⟩⟩
  beyond hunit _ hP := ⟨trivial, hP.2, Or.inr ⟨hP.1, hunit.nonempty⟩⟩

end Board

namespace Engine

open Attempt

variable {now : UInt64} {e : Engine page} {board : Board σ} {base length : UInt32} {first : Nat}

/-- Bytes were programmed from `first` up to some address. The transfer goes on from there, further on
if bytes after it were given up, or is over. -/
def Lays (config : Config) (base length : UInt32) (first : Nat) (gaveUp : Prop)
    (st : Engine page × Board σ) : Prop :=
  ∃ stop, st.2.Laid base.toNat (base.toNat + length.toNat) first stop ∧
    ((st.1.Transferring config base length ∧ stop ≤ st.1.frontier ∧
        (gaveUp ↔ stop < st.1.frontier)) ∨
      (st.1.session.activity = .idle ∧ stop = base.toNat + length.toNat ∧ ¬gaveUp))

theorem Transferring.undisturbed {before after : Engine page × Board σ}
    (h : before.1.Transferring config base length) (hsame : Undisturbed before after) :
    after.1.Transferring config base length := by
  refine ⟨?_, h.admitted, h.nonempty, h.whole, ?_, ?_⟩ <;> rw [hsame.session]
  · exact h.activity
  · exact h.transferBase
  · rw [hsame.assembly]
    exact h.positioned

/-- While nothing is programmed and nothing given up, the transfer goes on from where it was. -/
theorem Transferring.lays (h : e.Transferring config base length) (hfirst : e.frontier = first)
    (hnone : ∀ address, ¬board.Programmed address) {gaveUp : Prop} (hkept : ¬gaveUp) :
    Lays config base length first gaveUp (e, board) := by
  subst hfirst
  refine ⟨e.frontier, ⟨Nat.le_refl _, fun address _ _ => ?_⟩, Or.inl ⟨h, Nat.le_refl _, ?_⟩⟩
  · exact iff_of_false (hnone address) fun hin => absurd hin.2 (Nat.not_lt_of_le hin.1)
  · exact iff_of_false hkept (Nat.lt_irrefl _)

theorem Lays.congr {st : Engine page × Board σ} {gaveUp gaveUp' : Prop}
    (h : Lays config base length first gaveUp st) (hiff : gaveUp' ↔ gaveUp) :
    Lays config base length first gaveUp' st := by
  rwa [propext hiff]

theorem Lays.haltedBy {st : Engine page × Board σ} {gaveUp : Prop}
    (h : Lays config base length first gaveUp st) (err : UpdateError) :
    Lays config base length first gaveUp (st.1.haltedBy err, st.2) := by
  obtain ⟨stop, hlaid, ⟨htransferring, hwhere⟩ | hended⟩ := h
  · exact ⟨stop, hlaid, Or.inl ⟨{ htransferring with }, hwhere⟩⟩
  · exact ⟨stop, hlaid, Or.inr hended⟩

/-- Payload of a transfer programs bytes from the frontier on. -/
theorem receivePayload_lays (hpos : 0 < page) (hfits : page < UInt32.size)
    (h : e.Transferring config base length) (hfresh : board.events = #[]) {bytes : Bytes}
    (hsize : bytes.length < UInt32.size) :
    (receivePayload config chip now (base + length) bytes).Yields (e, board)
      (fun _ st => Lays config base length e.frontier False st)
      fun err st => Lays config base length e.frontier (err.Interrupts ∧ ¬st.2.ReadFailed) st := by
  have hnone (address : Nat) : ¬board.Programmed address := by simp [Board.Programmed, hfresh]
  have hreads : ¬board.ReadFailed := by simp [Board.ReadFailed, hfresh]
  have htracks := Board.tracks_laid page chip base.toNat (base.toNat + length.toNat) e.frontier
  have htracked : Tracked config base length (fun frontier board => ¬board.ReadFailed ∧
      board.Laid base.toNat (base.toNat + length.toNat) e.frontier frontier) (e, board) :=
    ⟨h, hreads, Nat.le_refl _, fun address _ _ =>
      iff_of_false (hnone address) fun hin => absurd hin.2 (Nat.not_lt_of_le hin.1)⟩
  refine (receivePayload_tracks htracks ?hemit hpos hfits htracked hsize).mono (fun _ st hst => ?_)
    fun err st hst => ?_
  case hemit =>
    intro frontier event hcall
    refine Board.keeps_emit fun board hboard => ?_
    have hevent (call failure) : event ≠ .flash call failure := by
      rintro rfl
      exact hcall trivial
    exact ⟨Board.not_readFailed_push hboard.1 (by simp [hevent]), hboard.2.push (by simp [hevent])⟩
  · rcases hst with ⟨⟨htransferring, _, hlaid⟩, _⟩ | ⟨hidle, _, _, _, hlaid⟩
    · exact ⟨_, hlaid, Or.inl ⟨htransferring, Nat.le_refl _, iff_of_false id (Nat.lt_irrefl _)⟩⟩
    · exact ⟨_, hlaid, Or.inr ⟨hidle, rfl, id⟩⟩
  · rcases hst with ⟨herr, rfl⟩ | ⟨htransferring, hnothing, stop, hinterrupts, hlaid, hwhy⟩
    · exact h.lays rfl hnone fun hgaveUp => herr.not_interrupts hgaveUp.1
    · have hcursor : st.1.frontier = st.1.session.cursor.toNat :=
        Assembly.frontier_of_nothing hnothing
      rw [← hcursor] at hwhy
      refine ⟨stop, hlaid, Or.inl ⟨htransferring, ?_⟩⟩
      rcases hwhy with ⟨hread, heq⟩ | ⟨hkept, hlt⟩
      · exact ⟨Nat.le_of_eq heq, iff_of_false (fun hgaveUp => hgaveUp.2 hread) (by omega)⟩
      · exact ⟨Nat.le_of_lt hlt, iff_of_true ⟨hinterrupts, hkept⟩ hlt⟩

/-- No packet of a transfer programs a byte before the frontier. -/
theorem receive_lays (hpos : 0 < page) (hfits : page < UInt32.size)
    (h : e.Transferring config base length) (hfresh : board.events = #[]) {packet : Packet}
    {address : UInt32} {ciphertext : Bytes} (hsuits : packet.Suits address ciphertext) :
    (receive config chip now packet).Yields (e, board)
      (fun _ st => Lays config base length e.frontier False st)
      fun err st => Lays config base length e.frontier
        (((∃ bytes, packet = .data bytes) ∧ err.Interrupts) ∧ ¬st.2.ReadFailed) st := by
  have hnone (address : Nat) : ¬board.Programmed address := by simp [Board.Programmed, hfresh]
  cases packet with
  | control bytes =>
      have hlays {st : Engine page × Board σ} (hst : Undisturbed (e, board) st) {gaveUp : Prop}
          (hkept : ¬gaveUp) : Lays config base length e.frontier gaveUp st := by
        refine (h.undisturbed hst).lays ?_ (fun address hprogrammed => ?_) hkept
        · rw [frontier, hst.session, hst.assembly]
          rfl
        · obtain ⟨start, bytes, hmem, hin⟩ := hprogrammed
          exact hnone address ⟨start, bytes, hst.calls _ _ hmem, hin⟩
      exact (receive_control_undisturbed (by simp [h.activity]) hsuits).mono
        (fun _ _ hst => hlays hst id) fun _ _ hst => hlays hst (by simp)
  | data bytes =>
      refine yields_receive_payload h.activity (fun err herr => ?_) (fun _ => ?_) fun _ _ _ => ?_
      · exact h.lays rfl hnone fun hgaveUp => herr.not_interrupts hgaveUp.1.2
      · exact Transferring.lays (e := { e with halted := true }) { h with } rfl hnone
          fun hgaveUp => hgaveUp.1.2
      · refine (receivePayload_lays hpos hfits h hfresh hsuits.1).mono (fun _ _ hst => hst)
          fun err st hst => ?_
        exact (hst.haltedBy err).congr (by simp)

end Engine

namespace Snapshot

variable {s : Snapshot page σ} {a : Arrival} {as : List Arrival} {base length : UInt32}
variable {ciphertext : Bytes}

/-- In the range of its transfer an exchange programs bytes from the frontier on. The transfer goes on
where they end, further on if bytes after them were given up, or is over. -/
theorem exchange_lays (chip : NorFlash σ) (hpos : 0 < page) (hfits : page < UInt32.size)
    (h : s.engine.Transferring config base length) {first : UInt32}
    (hsuits : a.packet.Suits first ciphertext) :
    ∃ stop, s.engine.frontier ≤ stop ∧
      (∀ address, (s.exchange config chip a).Programs address ↔
        s.engine.frontier ≤ address ∧ address < stop) ∧
      (((s.exchange config chip a).after.engine.Transferring config base length ∧
          stop ≤ (s.exchange config chip a).after.engine.frontier ∧
          ((s.exchange config chip a).GivesUp ↔
            stop < (s.exchange config chip a).after.engine.frontier)) ∨
        ((s.exchange config chip a).after.engine.session.activity = .idle ∧
          stop = base.toNat + length.toNat ∧ ¬(s.exchange config chip a).GivesUp)) := by
  have hlays : Engine.Lays config base length s.engine.frontier (s.exchange config chip a).GivesUp
      ((s.exchange config chip a).after.engine,
        { flash := (s.exchange config chip a).after.flash
          events := (s.exchange config chip a).events }) := by
    refine exchange_of_yields (Q := fun answer e board =>
      Engine.Lays config base length s.engine.frontier
        ((s.exchange config chip a).CarriesPayload ∧
          (∃ err, answer = .error err ∧ err.Interrupts) ∧ ¬board.ReadFailed) (e, board)) ?_
    have hcarries : (s.exchange config chip a).CarriesPayload ↔ ∃ bytes, a.packet = .data bytes := by
      simp [Exchange.CarriesPayload, h.activity]
    refine (Engine.receive_lays hpos hfits h rfl hsuits).mono (fun _ _ hst => hst.congr (by simp))
      fun err st hst => hst.congr ?_
    simp only [hcarries, Except.error.injEq, exists_eq_left', and_assoc]
  obtain ⟨stop, hlaid, hwhere⟩ := hlays
  refine ⟨stop, hlaid.1, fun address => ⟨fun hprograms => ?_, fun hin => ?_⟩, hwhere⟩
  · obtain ⟨base', length', start, bytes, hactivity, hmem, hlow, hhigh, hin⟩ := hprograms
    rw [exchange_before] at hactivity
    obtain ⟨rfl, rfl⟩ := Activity.transfer.inj (h.activity.symm.trans hactivity)
    exact (hlaid.2 address hlow hhigh).mp ⟨start, bytes, hmem, hin⟩
  · have hbase := h.frontier_le
    have hstop : stop ≤ base.toNat + length.toNat := by
      rcases hwhere with ⟨htransferring, hle, _⟩ | ⟨_, heq, _⟩
      · exact Nat.le_trans hle htransferring.frontier_le.2
      · exact Nat.le_of_eq heq
    have hlow : base.toNat ≤ address := Nat.le_trans hbase.1 hin.1
    have hhigh : address < base.toNat + length.toNat := Nat.lt_of_lt_of_le hin.2 hstop
    obtain ⟨start, bytes, hmem, hthere⟩ := (hlaid.2 address hlow hhigh).mpr hin
    refine ⟨base, length, start, bytes, ?_, hmem, hlow, hhigh, hthere⟩
    rw [exchange_before, h.activity]

/-- What is programmed once a transfer stands somewhere is at its frontier or after it. -/
theorem frontier_le_of_programs (hpos : 0 < page) (hfits : page < UInt32.size)
    (h : s.engine.Transferring config base length)
    (hsuits : ∀ a ∈ as, a.packet.Suits base ciphertext) (hends : s.IdleOnceAfter config chip as)
    {x : Exchange page σ} (hx : x ∈ s.exchanges config chip as) {address : Nat}
    (hprograms : x.Programs address) : s.engine.frontier ≤ address := by
  induction as generalizing s with
  | nil => simp [exchanges] at hx
  | cons a as ih =>
      rw [List.forall_mem_cons] at hsuits
      obtain ⟨stop, hfirst, hlays, hwhere⟩ := exchange_lays chip hpos hfits h hsuits.1
      rw [exchanges, List.mem_cons] at hx
      rcases hx with rfl | hx
      · exact ((hlays address).mp hprograms).1
      · rcases hwhere with ⟨htransferring, hle, _⟩ | ⟨hidle, _⟩
        · have hlow := ih htransferring hsuits.2 hends.tail hx
          omega
        · obtain rfl := hends.eq_nil hidle
          simp [exchanges] at hx

/-- A transfer that is over has programmed all that was pending or to come exactly if nothing was given
up. -/
theorem forall_not_givesUp_iff (hpos : 0 < page) (hfits : page < UInt32.size)
    (h : s.engine.Transferring config base length)
    (hsuits : ∀ a ∈ as, a.packet.Suits base ciphertext) (hends : s.IdleOnceAfter config chip as) :
    (∀ x ∈ s.exchanges config chip as, ¬x.GivesUp) ↔
      ∀ address, s.engine.frontier ≤ address → address < base.toNat + length.toNat →
        ∃ x ∈ s.exchanges config chip as, x.Programs address := by
  induction as generalizing s with
  | nil =>
      have hidle : s.engine.session.activity = .idle := hends.1
      exact absurd (hidle.symm.trans h.activity) (by simp)
  | cons a as ih =>
      rw [List.forall_mem_cons] at hsuits
      obtain ⟨stop, hfirst, hlays, hwhere⟩ := exchange_lays chip hpos hfits h hsuits.1
      rw [exchanges, List.forall_mem_cons]
      simp only [List.mem_cons, exists_eq_or_imp, hlays]
      rcases hwhere with ⟨htransferring, hle, hgivesUp⟩ | ⟨hidle, rfl, hkept⟩
      · rw [ih htransferring hsuits.2 hends.tail, hgivesUp]
        have hlimit := htransferring.frontier_le.2
        constructor
        · rintro ⟨hkept, hlater⟩ address hlow hhigh
          by_cases hin : address < stop
          · exact Or.inl ⟨hlow, hin⟩
          · exact Or.inr (hlater address (by omega) hhigh)
        · intro hall
          -- What was given up begins at `stop`, and nothing later programs a byte before the frontier.
          have hkept : ¬stop < (s.exchange config chip a).after.engine.frontier := by
            intro hlt
            rcases hall stop hfirst (by omega) with hin | ⟨x, hx, hprograms⟩
            · omega
            · have hlow := frontier_le_of_programs hpos hfits htransferring hsuits.2 hends.tail hx
                hprograms
              omega
          refine ⟨hkept, fun address hlow hhigh => ?_⟩
          exact (hall address (by omega) hhigh).resolve_left (by omega)
      · obtain rfl := hends.eq_nil hidle
        exact iff_of_true ⟨hkept, by simp [exchanges]⟩ fun address hlow hhigh => Or.inl ⟨hlow, hhigh⟩

/-- A transfer that is accepted begins with its cursor in place and nothing pending. -/
theorem exchange_transferring (hpos : 0 < page) (hfits : page < UInt32.size)
    (haligned : s.engine.assembly.Aligned) (hconsistent : s.engine.Consistent) {length : UInt16}
    (hbegins : (s.exchange config chip a).Begins base length) :
    (s.exchange config chip a).after.engine.Transferring config base length.toUInt32 ∧
      (s.exchange config chip a).after.engine.frontier = base.toNat := by
  have hbegun : (s.exchange config chip a).after.engine.Transferring config base length.toUInt32 ∧
      (s.exchange config chip a).after.engine.session.cursor = base := by
    refine exchange_of_begins hbegins (Q := fun st =>
      st.1.Transferring config base length.toUInt32 ∧ st.1.session.cursor = base)
      fun hidle hnonempty hadmits hwhole => ?_
    exact (Engine.seek_tracked a.now (Engine.tracks_true chip _ _) hpos hfits hadmits hnonempty hwhole
      haligned (hconsistent.nothingPending (by simp [hidle])) trivial).mono
      (fun _ _ hst => ⟨hst.1, rfl⟩) fun _ _ _ => trivial
  obtain ⟨htransferring, hcursor⟩ := hbegun
  have hfrontier := htransferring.positioned.frontier_le htransferring.limit_lt
  rw [hcursor] at hfrontier
  exact ⟨htransferring, Nat.le_antisymm (hcursor ▸ hfrontier.2) (hcursor ▸ hfrontier.1)⟩

/-- A transfer that is over has left the decrypted ciphertext in its range unless pending bytes were given
up, and has programmed every byte of its range exactly if none were. -/
theorem completed_transfer_delivers_unless_given_up (config : Config) (chip : NorFlash σ)
    (view : NorFlash.View σ) (honest : chip.Honest view) (hpos : 0 < page) (hfits : page < UInt32.size)
    (s : Snapshot page σ) (hs : s.Reachable config chip view) (a : Arrival) (base : UInt32)
    (length : UInt16) (hbegins : (s.exchange config chip a).Begins base length) (ciphertext : Bytes)
    (hlength : ciphertext.length = length.toNat) (as : List Arrival)
    (hsuits : ∀ b ∈ as, b.packet.Suits base ciphertext)
    (hends : (s.exchange config chip a).after.IdleOnceAfter config chip as) :
    let transfer := (s.exchange config chip a).after.exchanges config chip as
    let after := s.run config chip (a :: as)
    let vector := s.engine.assembly.vector
    ((∀ x ∈ transfer, ¬x.GivesUp) →
      (view.content after.flash).peek base.toNat length.toNat =
          Chain.plaintext config.key vector ciphertext ∧
        (∀ x, x < base.toNat ∨ base.toNat + length.toNat ≤ x →
          view.content after.flash x = view.content s.flash x) ∧
        after.engine.assembly.vector = Chain.nextVector vector ciphertext) ∧
      ((∀ x ∈ transfer, ¬x.GivesUp) ↔
        ∀ address, base.toNat ≤ address → address < base.toNat + length.toNat →
          ∃ x ∈ transfer, x.Programs address) := by
  intro transfer after vector
  have hfaithful := hs.faithful honest hfits
  have hsize : length.toUInt32.toNat = length.toNat := by simp
  constructor
  · intro hkept
    obtain ⟨hlies, hunderWay⟩ :=
      exchange_underWay honest hfits hfaithful hs.consistent hbegins hlength
    have hdelivered := run_delivers honest hpos hfits hlies rfl (hsize.trans hlength.symm) hunderWay
      hsuits (fun x hx hlost => hkept x hx hlost.1) hends
    have hholds := hdelivered.holds hlies
    simp only [Delivery.limit, hlength] at hholds
    exact hholds
  · obtain ⟨htransferring, hfrontier⟩ :=
      exchange_transferring hpos hfits (fun u hu => (hfaithful.2 u hu).1) hs.consistent hbegins
    have hiff := forall_not_givesUp_iff hpos hfits htransferring hsuits hends
    rw [hfrontier, hsize] at hiff
    exact hiff

end Snapshot

end FirmwareUpdate

/-! ### A unit that could not be erased -/

namespace FirmwareUpdate

namespace SmallDevice

theorem pieces_kept : ∀ x ∈ receiving.exchanges config chip pieces, ¬x.GivesUp := by
  have hanswers : (receiving.exchanges config chip pieces).map (fun x => x.answer.toBool) =
      [true, true] := by decide +kernel
  rintro x hx ⟨_, ⟨err, hanswer, _⟩, _⟩
  have hin := List.mem_map_of_mem (f := fun x => x.answer.toBool) hx
  rw [hanswers] at hin
  simp [hanswer, Except.toBool] at hin

/-- The small device, whose second unit cannot be erased the first time. -/
def worn : Snapshot 16 FlashMemory :=
  ⟨{}, { flash with faults := [⟨.erase, 16, 16, .fail .other, some 1⟩] }⟩

def twoUnits : Arrival := command { command := .data, length := 32, address := 16 }

/-- Two blocks of zeros, the same again since they were refused, and then the second alone. -/
def resent : List Arrival :=
  [data (PayloadPacket.encode { address := 16, payload := List.replicate 32 0 }),
    data (PayloadPacket.encode { address := 16, payload := List.replicate 32 0 }),
    data (PayloadPacket.encode { address := 32, payload := List.replicate 16 0 })]

/-- What each packet was answered, what was awaited then, and what was done last. -/
theorem steps_resent :
    ((worn.exchange config chip twoUnits).after.exchanges config chip resent).map
        (fun x => (x.answer.toBool, x.after.engine.session.activity, x.events.back?)) =
      [(false, .transfer 16 32, some (.flash (.erase 16 32) (some .other))),
        (true, .transfer 16 32, none),
        (true, .idle,
          some (.report { expected := 32, progress := 32, bytes := 48, elapsedMs := 0 }))] := by
  decide +kernel

theorem resent_suit : ∀ b ∈ resent, b.packet.Suits 16 (List.replicate 32 0) := by
  intro b hb
  simp only [resent, List.mem_cons, List.not_mem_nil, or_false] at hb
  rcases hb with rfl | rfl | rfl
  · exact zeros_suit rfl (by decide) rfl
  · exact zeros_suit rfl (by decide) rfl
  · exact zeros_suit rfl (by decide) rfl

end SmallDevice

open SmallDevice in
theorem completed_transfer_delivers_unless_given_up_pieces :
    (start.exchange SmallDevice.config SmallDevice.chip transfer).Begins 48 16 ∧
      receiving.IdleOnceAfter SmallDevice.config SmallDevice.chip pieces ∧
      (FlashMemory.view.content
        (start.run SmallDevice.config SmallDevice.chip (transfer :: pieces)).flash).peek 48 16 =
          Chain.plaintext SmallDevice.config.key start.engine.assembly.vector (List.replicate 16 0) ∧
      ∀ address, 48 ≤ address → address < 64 →
        ∃ x ∈ receiving.exchanges SmallDevice.config SmallDevice.chip pieces, x.Programs address := by
  obtain ⟨hdelivers, hiff⟩ := Snapshot.completed_transfer_delivers_unless_given_up SmallDevice.config
    SmallDevice.chip FlashMemory.view (FlashMemory.chip_atomic 16).toHonest (by decide) (by decide)
    start ⟨_, [], flash_sound, rfl⟩ transfer 48 16 transfer_begins (List.replicate 16 0) (by decide)
    pieces pieces_suit idleOnceAfter_pieces
  exact ⟨transfer_begins, idleOnceAfter_pieces, (hdelivers pieces_kept).1, hiff.mp pieces_kept⟩

open SmallDevice in
/-- A transfer can complete although a unit of its range was not programmed: the packets that carry it
again are taken for settled. -/
theorem transfer_completes_without_unit :
    worn.Reachable SmallDevice.config SmallDevice.chip FlashMemory.view ∧
      (worn.exchange SmallDevice.config SmallDevice.chip twoUnits).Begins 16 32 ∧
      (∀ b ∈ resent, b.packet.Suits 16 (List.replicate 32 0)) ∧
      (worn.exchange SmallDevice.config SmallDevice.chip twoUnits).after.IdleOnceAfter
        SmallDevice.config SmallDevice.chip resent ∧
      (∃ x ∈ (worn.exchange SmallDevice.config SmallDevice.chip twoUnits).after.exchanges
          SmallDevice.config SmallDevice.chip resent,
        x.answer = .ok () ∧ x.after.engine.session.activity = .idle ∧
          ∃ figures, .report figures ∈ x.events) ∧
      (FlashMemory.view.content
        (worn.run SmallDevice.config SmallDevice.chip (twoUnits :: resent)).flash).peek 16 32 ≠
          Chain.plaintext SmallDevice.config.key worn.engine.assembly.vector
            (List.replicate 32 0) := by
  refine ⟨⟨_, [], ?_, rfl⟩, by decide +kernel, resent_suit, by decide +kernel, ?_, ?_⟩
  · simp [FlashMemory.view]
  · obtain ⟨x, hx, heq⟩ := List.mem_map.mp (List.mem_of_getElem? (congrArg (·[2]?) steps_resent))
    simp only [Prod.mk.injEq] at heq
    obtain ⟨hanswer, hactivity, hevents⟩ := heq
    exact ⟨x, hx, Exchange.toBool_answer.mp hanswer, hactivity, _, Array.mem_of_back? hevents⟩
  · rw [FlashMemory.content_peek]
    decide +kernel

end FirmwareUpdate
