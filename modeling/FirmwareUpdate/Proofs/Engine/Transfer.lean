import FirmwareUpdate.Proofs.Delivery
import FirmwareUpdate.Proofs.Engine.Faithful
import FirmwareUpdate.Proofs.Engine.Payload
import FirmwareUpdate.Proofs.Flash.Memory

/-!
# What a completed transfer leaves in flash

A transfer delivers its ciphertext whatever order its packets come in: packets that were missed, sent
again or cut anew leave the delivery standing, and so do commands. When it completes, its range holds
the decrypted stream, every other byte is as before, and the chaining vector is the last block of the
ciphertext.
-/

namespace FirmwareUpdate

variable {page : Nat} {σ : Type} {config : Config} {chip : NorFlash σ} {view : NorFlash.View σ}
variable {d : Delivery}

namespace Delivery

theorem Fits.limit_lt (h : d.Fits page) : d.limit < UInt32.size := by
  have hlast := h.last
  have hlt := Nat.lt_div_mul_add h.pos (a := d.limit - 1)
  omega

/-- The cursor can go back over pending bytes. -/
theorem Stands.rewind {count cursor address : Nat} {a : Assembly page} {content : FlashContent}
    (h : d.Stands count cursor a content) (hlow : d.base.toNat + count ≤ address)
    (hhigh : address ≤ cursor) : d.Stands count address a content where
  whole := h.whole
  content_eq := h.content_eq
  vector_eq := h.vector_eq
  mirrors := h.mirrors
  coherent := h.coherent
  nothing hnothing := by
    have := h.nothing hnothing
    omega
  pending u s hbuffer hs :=
    let hcovers := h.pending u s hbuffer hs
    { hcovers with count_le := hlow, cursor_le := Nat.le_trans hhigh hcovers.cursor_le }

end Delivery

/-- The packet is a command other than `restart`, or data that agrees with the ciphertext wherever it
covers the range from `base` on. -/
def Packet.Suits (packet : Packet) (base : UInt32) (ciphertext : Bytes) : Prop :=
  match packet with
  | .control bytes => ∀ p, ControlPacket.decode bytes = .ok p → p.command ≠ .restart
  | .data bytes =>
    bytes.length < UInt32.size ∧
      ∀ p, PayloadPacket.decode bytes = .ok p →
        ∀ i b, p.payload[i]? = some b → base.toNat ≤ p.address.toNat + i →
          p.address.toNat + i < base.toNat + ciphertext.length →
            ciphertext[p.address.toNat + i - base.toNat]? = some b

namespace Engine

open Attempt

variable {now : UInt64} {e : Engine page} {board : Board σ}

/-- A delivery goes with the cursor through a transfer, in bytes that agree with its ciphertext. -/
theorem stands_carries (honest : chip.Honest view) (hpos : 0 < page) (hpage : page < UInt32.size)
    (hlimit : d.limit < UInt32.size) (hwhole : d.ciphertext.length % Block.size = 0)
    (hkey : config.key = d.key) :
    Carries config chip d.limit d.Agrees
      (fun cursor (st : Assembly page × Board σ) => view.Sound st.2.flash ∧ ¬st.2.ReadFailed ∧
        ∃ count, d.Stands count cursor st.1 (view.content st.2.flash))
      (fun st => view.content st.2.flash = d.contentAfter d.ciphertext.length ∧
        st.1.vector = d.vectorAfter d.ciphertext.length)
      (fun err cursor st => d.Pauses view cursor err st ∨ d.Loses page err st.2) where
  rest hagrees taken := hagrees.drop taken
  rewind {cursor address st start} hat hstart hlow hhigh := by
    obtain ⟨hsound, hreads, count, hstands⟩ := hat
    obtain ⟨u, s, hbuffer, hs, rfl⟩ := Assembly.pendingFrom_eq_some hstart
    have hcovers := hstands.pending u s hbuffer hs
    have hbegin := hcovers.start
    have hnonempty := hcovers.nonempty
    have hstop := hcovers.stop_le_limit
    have hsum : (u.base + UInt32.ofNat s.start).toNat = u.base.toNat + s.start :=
      Address.toNat_add_ofNat (by omega)
    rw [hsum] at hlow
    exact ⟨hsound, hreads, count, hstands.rewind (by omega) hhigh⟩
  seek hat _ := by
    obtain ⟨hsound, hreads, count, hstands⟩ := hat
    rw [hkey]
    exact (Delivery.seek_stands honest hpage hsound hreads hstands rfl).mono
      (fun _ st hst => ⟨⟨hst.1, hst.2.1, hst.2.2.2⟩, hst.2.2.1⟩) fun _ _ h => h
  insert {address bytes st} hat hthere hbytes hend hagrees := by
    obtain ⟨hsound, hreads, count, hstands⟩ := hat
    refine (Delivery.insert_stands hpos hpage hstands rfl hthere hbytes hagrees hend).mono
      (fun taken st' hst => ?_) fun _ _ h => h
    obtain ⟨hboard, htaken, hle, hstands'⟩ := hst
    rw [hboard]
    exact ⟨htaken, hle, hsound, hreads, count, hstands'⟩
  commit {st} hat := by
    obtain ⟨hsound, hreads, count, hstands⟩ := hat
    have hlength : d.limit - d.base.toNat = d.ciphertext.length := by
      simp only [Delivery.limit]
      omega
    rw [hkey]
    refine (Delivery.commit_stands honest hpage hsound hreads hstands fun u s hbuffer hs => ?_).mono
      (fun _ st' hst => ?_) fun _ _ hloses => Or.inr hloses
    · have hcovers := hstands.pending u s hbuffer hs
      have hlow := hcovers.cursor_le
      have hhigh := hcovers.stop_le_limit
      rw [hlength]
      exact ⟨by omega, fun _ => hwhole⟩
    · obtain ⟨_, _, _, hstands'⟩ := hst
      rw [hlength] at hstands'
      exact ⟨hstands'.content_eq, hstands'.vector_eq⟩

/-- The delivery is under way: the transfer of its range is awaited, and it stands somewhere. -/
def UnderWay (view : NorFlash.View σ) (d : Delivery) (length : UInt32)
    (st : Engine page × Board σ) : Prop :=
  view.Sound st.2.flash ∧ st.1.session.activity = .transfer d.base length ∧
    ∃ count, d.Stands count st.1.session.cursor.toNat st.1.assembly (view.content st.2.flash)

/-- The delivery is complete: all of it is programmed, and nothing is awaited. -/
def Delivered (view : NorFlash.View σ) (d : Delivery) (st : Engine page × Board σ) : Prop :=
  st.1.session.activity = .idle ∧
    view.content st.2.flash = d.contentAfter d.ciphertext.length ∧
    st.1.assembly.vector = d.vectorAfter d.ciphertext.length

/-- Once a delivery is complete its range holds the plaintext, and the rest of flash is as before. -/
theorem Delivered.holds {st : Engine page × Board σ} (h : Delivered view d st) (hlies : d.Lies) :
    (view.content st.2.flash).peek d.base.toNat d.ciphertext.length =
        Chain.plaintext d.key d.vector d.ciphertext ∧
      (∀ x, x < d.base.toNat ∨ d.limit ≤ x → view.content st.2.flash x = d.before x) ∧
      st.1.assembly.vector = Chain.nextVector d.vector d.ciphertext := by
  obtain ⟨_, hcontent, hvector⟩ := h
  rw [Delivery.vectorAfter, List.take_length] at hvector
  obtain ⟨hrange, hrest⟩ := Delivery.contentAfter_length hlies.length
  rw [hcontent]
  exact ⟨hrange, hrest, hvector⟩

variable {length : UInt32}

/-- Payload that agrees with the ciphertext continues the delivery or completes it, unless some of it is
lost. -/
theorem receivePayload_proceeds (honest : chip.Honest view) (hpos : 0 < page)
    (hpage : page < UInt32.size) (hlies : d.Lies) (hkey : config.key = d.key)
    (h : UnderWay view d length (e, board)) (hreads : ¬board.ReadFailed) {limit : UInt32}
    (hlimit : limit.toNat = d.limit) {bytes : Bytes}
    (hsuits : (Packet.data bytes).Suits d.base d.ciphertext) :
    (receivePayload config chip now limit bytes).Yields (e, board)
      (fun _ st => UnderWay view d length st ∨ Delivered view d st)
      fun err st => UnderWay view d length st ∨ d.Loses page err st.2 := by
  obtain ⟨hsound, hactivity, hstands⟩ := h
  have hcarries := stands_carries honest hpos hpage hlies.limit_lt hlies.length hkey
  rw [← hlimit] at hcarries
  have hunderWay : UnderWay view d length (e, board) := ⟨hsound, hactivity, hstands⟩
  refine yields_receivePayload (fun _ _ => Or.inl hunderWay) fun packet hpacket => ?_
  split
  · exact Or.inl hunderWay
  · exact Or.inl hunderWay
  · next hplacement =>
      have hsize := PayloadPacket.length_of_decode hpacket
      have hbytes := hsuits.1
      apply takePayload_carries hcarries ⟨hsound, hreads, hstands⟩ hplacement (by omega)
      case hsuited =>
        intro hend hat i b hb
        obtain ⟨_, _, _, hthere⟩ := hat
        have hlow := hthere.le_cursor
        have hi := (List.getElem?_eq_some_iff.mp hb).1
        rw [hlimit] at hend
        have hin : packet.address.toNat + i < d.limit := by omega
        exact hsuits.2 packet hpacket i b hb (by omega) hin
      case hoverrun => exact fun _ _ => Or.inl hunderWay
      case hmoved =>
        intro assembly cursor board' _ _ hat
        exact Or.inl ⟨hat.1, hactivity, hat.2.2⟩
      case hended => exact fun _ _ _ hended => Or.inr ⟨rfl, hended⟩
      case hhalts =>
        intro err assembly cursor board' hhalts
        rcases hhalts with ⟨_, _, hsound', hstands'⟩ | hloses
        · exact Or.inl ⟨hsound', hactivity, hstands'⟩
        · exact Or.inr hloses

/-- What disturbs nothing leaves a delivery under way. -/
theorem UnderWay.undisturbed {before after : Engine page × Board σ} (h : UnderWay view d length before)
    (hsame : Undisturbed before after) : UnderWay view d length after := by
  unfold UnderWay
  rw [hsame.session, hsame.assembly, hsame.flash]
  exact h

/-- A packet that suits a delivery continues or completes it, unless it is payload some of which is
lost. -/
theorem receive_proceeds (honest : chip.Honest view) (hpos : 0 < page) (hpage : page < UInt32.size)
    (hlies : d.Lies) (hkey : config.key = d.key) (hlength : length.toNat = d.ciphertext.length)
    (h : UnderWay view d length (e, board)) (hreads : ¬board.ReadFailed) {packet : Packet}
    (hsuits : packet.Suits d.base d.ciphertext) :
    (receive config chip now packet).Yields (e, board)
      (fun _ st => UnderWay view d length st ∨ Delivered view d st)
      fun err st => UnderWay view d length st ∨
        (∃ bytes, packet = .data bytes) ∧ d.Loses page err st.2 := by
  cases packet with
  | control bytes =>
      have hactivity : e.session.activity = .transfer d.base length := h.2.1
      exact (receive_control_undisturbed (by simp [hactivity]) hsuits).mono
        (fun _ _ hsame => Or.inl (h.undisturbed hsame)) fun _ _ hsame => Or.inl (h.undisturbed hsame)
  | data bytes =>
      have hlimit : (d.base + length).toNat = d.limit := by
        have hlt := hlies.limit_lt
        simp only [Delivery.limit, ← hlength] at hlt ⊢
        exact Address.toNat_add_of_lt hlt
      refine yields_receive_payload h.2.1 (fun _ _ => Or.inl h) (fun _ => Or.inl h) fun _ _ _ => ?_
      exact (receivePayload_proceeds honest hpos hpage hlies hkey h hreads hlimit hsuits).mono
        (fun _ _ h => h) fun err st hst => hst.imp (fun h => h) fun hloses => ⟨⟨bytes, rfl⟩, hloses⟩

end Engine

/-! ### Transfers as runs -/

namespace Exchange

/-- A flash call failed. -/
def FlashFailed (x : Exchange page σ) : Prop :=
  ∃ call e, .flash call (some e) ∈ x.events

theorem flashFailed_iff {x : Exchange page σ} :
    x.FlashFailed ↔ ∃ event ∈ x.events.toList, event.Fails := by
  constructor
  · rintro ⟨call, e, hmem⟩
    exact ⟨_, Array.mem_toList_iff.mpr hmem, trivial⟩
  · rintro ⟨event, hmem, hfails⟩
    unfold Event.Fails at hfails
    split at hfails
    · exact ⟨_, _, Array.mem_toList_iff.mp hmem⟩
    · exact hfails.elim

instance (x : Exchange page σ) : Decidable x.FlashFailed := decidable_of_iff' _ flashFailed_iff

/-- A call that reads flash failed. -/
def ReadFailed (x : Exchange page σ) : Prop :=
  ∃ address length e, .flash (.read address length) (some e) ∈ x.events

/-- Payload was rejected because bytes that were pending could not be programmed. They are lost. -/
def GivesUp (x : Exchange page σ) : Prop :=
  x.CarriesPayload ∧ (∃ err, x.answer = .error err ∧ err.Interrupts) ∧ ¬x.ReadFailed

end Exchange

namespace Snapshot

variable {s : Snapshot page σ} {a : Arrival} {as : List Arrival} {length : UInt32}

/-- The engine is idle after these packets, and was not before the last of them. -/
def IdleOnceAfter (config : Config) (chip : NorFlash σ) (s : Snapshot page σ) (as : List Arrival) :
    Prop :=
  (s.run config chip as).engine.session.activity = .idle ∧
    ∀ front rest, as = front ++ rest → rest ≠ [] →
      (s.run config chip front).engine.session.activity ≠ .idle

theorem idleOnceAfter_iff :
    s.IdleOnceAfter config chip as ↔
      (s.run config chip as).engine.session.activity = .idle ∧
        ∀ x ∈ s.exchanges config chip as, x.before.engine.session.activity ≠ .idle := by
  refine and_congr_right fun hidle => ?_
  induction as generalizing s with
  | nil =>
      refine iff_of_true (fun front rest heq hrest => ?_) (by simp [exchanges])
      exact absurd (List.append_eq_nil_iff.mp heq.symm).2 hrest
  | cons a as ih =>
      rw [exchanges, List.forall_mem_cons, exchange_before, ← ih hidle]
      constructor
      · intro h
        exact ⟨h [] (a :: as) rfl (by simp),
          fun front rest heq => h (a :: front) rest (by rw [heq]; rfl)⟩
      · rintro ⟨hfirst, hlater⟩ front rest heq hrest
        cases front with
        | nil => exact hfirst
        | cons b front =>
            obtain ⟨rfl, rfl⟩ := List.cons.inj heq
            exact hlater front rest rfl hrest

instance : Decidable (s.IdleOnceAfter config chip as) := decidable_of_iff' _ idleOnceAfter_iff

theorem IdleOnceAfter.tail (h : s.IdleOnceAfter config chip (a :: as)) :
    (s.exchange config chip a).after.IdleOnceAfter config chip as :=
  ⟨h.1, fun front rest heq => h.2 (a :: front) rest (by rw [heq]; rfl)⟩

theorem IdleOnceAfter.eq_nil (h : s.IdleOnceAfter config chip (a :: as))
    (hidle : (s.exchange config chip a).after.engine.session.activity = .idle) : as = [] := by
  by_contra hmore
  exact h.2 [a] as rfl hmore hidle

theorem idleOnceAfter_singleton (hbusy : s.engine.session.activity ≠ .idle)
    (hidle : (s.exchange config chip a).after.engine.session.activity = .idle) :
    s.IdleOnceAfter config chip [a] := by
  rw [idleOnceAfter_iff, exchanges, exchanges, List.forall_mem_singleton, exchange_before]
  exact ⟨hidle, hbusy⟩

theorem exchange_proceeds (honest : chip.Honest view) (hpos : 0 < page) (hpage : page < UInt32.size)
    (hlies : d.Lies) (hkey : config.key = d.key) (hlength : length.toNat = d.ciphertext.length)
    (h : Engine.UnderWay view d length (s.engine, { flash := s.flash }))
    (hsuits : a.packet.Suits d.base d.ciphertext) :
    ((s.exchange config chip a).GivesUp ∧
        ((s.exchange config chip a).FlashFailed ∨ ¬d.Fits page)) ∨
      Engine.UnderWay view d length
        ((s.exchange config chip a).after.engine, { flash := (s.exchange config chip a).after.flash }) ∨
      Engine.Delivered view d
        ((s.exchange config chip a).after.engine,
          { flash := (s.exchange config chip a).after.flash }) := by
  have hreads : ¬Board.ReadFailed ({ flash := s.flash } : Board σ) := by simp [Board.ReadFailed]
  have hcarries (hdata : ∃ bytes, a.packet = .data bytes) :
      (s.exchange config chip a).CarriesPayload := by
    rw [Exchange.CarriesPayload, exchange_arrival, exchange_before]
    exact ⟨hdata, _, _, h.2.1⟩
  refine exchange_of_yields (Q := fun answer e board =>
    (((s.exchange config chip a).CarriesPayload ∧
        (∃ err, answer = .error err ∧ err.Interrupts) ∧ ¬board.ReadFailed) ∧
          (board.Failed ∨ ¬d.Fits page)) ∨
      Engine.UnderWay view d length (e, { flash := board.flash }) ∨
      Engine.Delivered view d (e, { flash := board.flash })) ?_
  refine (Engine.receive_proceeds honest hpos hpage hlies hkey hlength h hreads hsuits).mono
    (fun _ _ hst => Or.inr hst) fun err st hst => ?_
  rcases hst with hunderWay | ⟨hdata, hinterrupts, hreads', hwhy⟩
  · exact Or.inr (Or.inl hunderWay)
  · exact Or.inl ⟨⟨hcarries hdata, ⟨err, rfl, hinterrupts⟩, hreads'⟩, hwhy⟩

/-- A delivery that is under way is complete once the engine is idle again, if nothing was lost. -/
theorem run_delivers (honest : chip.Honest view) (hpos : 0 < page) (hpage : page < UInt32.size)
    (hlies : d.Lies) (hkey : config.key = d.key) (hlength : length.toNat = d.ciphertext.length)
    (h : Engine.UnderWay view d length (s.engine, { flash := s.flash }))
    (hsuits : ∀ a ∈ as, a.packet.Suits d.base d.ciphertext)
    (hkept : ∀ x ∈ s.exchanges config chip as, ¬(x.GivesUp ∧ (x.FlashFailed ∨ ¬d.Fits page)))
    (hends : s.IdleOnceAfter config chip as) :
    Engine.Delivered view d
      ((s.run config chip as).engine, { flash := (s.run config chip as).flash }) := by
  induction as generalizing s with
  | nil =>
      have hidle : s.engine.session.activity = .idle := hends.1
      exact absurd (hidle.symm.trans h.2.1) (by simp)
  | cons a as ih =>
      rw [exchanges, List.forall_mem_cons] at hkept
      rw [List.forall_mem_cons] at hsuits
      obtain hlost | hunderWay | hdelivered :=
        exchange_proceeds honest hpos hpage hlies hkey hlength h hsuits.1
      · exact absurd hlost hkept.1
      · exact ih hunderWay hsuits.2 hkept.2 hends.tail
      · obtain rfl := hends.eq_nil hdelivered.1
        exact hdelivered

/-- On a chip that does not fail, units that fit the range are never lost. -/
theorem run_delivered (honest : chip.Honest view) (hfits : d.Fits page) (hkey : config.key = d.key)
    (hlength : length.toNat = d.ciphertext.length)
    (h : Engine.UnderWay view d length (s.engine, { flash := s.flash }))
    (hsuits : ∀ a ∈ as, a.packet.Suits d.base d.ciphertext)
    (hflash : ∀ x ∈ s.exchanges config chip as, ¬x.FlashFailed)
    (hends : s.IdleOnceAfter config chip as) :
    Engine.Delivered view d
      ((s.run config chip as).engine, { flash := (s.run config chip as).flash }) :=
  run_delivers honest hfits.pos hfits.page_lt ⟨hfits.base, hfits.length, hfits.limit_lt⟩ hkey hlength h
    hsuits (fun x hx hlost => hlost.2.elim (hflash x hx) fun hnot => hnot hfits) hends

/-- The engine began fresh on a chip that was what it seemed to be. -/
def Reachable (config : Config) (chip : NorFlash σ) (view : NorFlash.View σ) (s : Snapshot page σ) :
    Prop :=
  ∃ flash past, view.Sound flash ∧ s = (⟨{}, flash⟩ : Snapshot page σ).run config chip past

theorem Reachable.faithful (honest : chip.Honest view) (hpage : page < UInt32.size)
    (hs : s.Reachable config chip view) : Engine.Faithful view (s.engine, { flash := s.flash }) := by
  obtain ⟨flash, past, sound, rfl⟩ := hs
  exact run_faithful honest hpage sound past

theorem Reachable.consistent (hs : s.Reachable config chip view) : s.engine.Consistent := by
  obtain ⟨flash, past, _, rfl⟩ := hs
  exact run_consistent Engine.consistent_fresh past

theorem begins_of_answer (hanswer : (s.exchange config chip a).answer = .ok ()) {base : UInt32}
    {length : UInt16}
    (hcommand : a.packet.command? = some { command := .data, length, address := base }) :
    (s.exchange config chip a).Begins base length :=
  ⟨hanswer, by rw [exchange_arrival]; exact hcommand⟩

/-- A transfer that is accepted is under way with all of its ciphertext to come. -/
theorem exchange_underWay (honest : chip.Honest view) (hpage : page < UInt32.size)
    (hfaithful : Engine.Faithful view (s.engine, { flash := s.flash }))
    (hconsistent : s.engine.Consistent) {base : UInt32} {length : UInt16}
    (hbegins : (s.exchange config chip a).Begins base length) {ciphertext : Bytes}
    (hlength : ciphertext.length = length.toNat) :
    let d : Delivery :=
      ⟨config.key, s.engine.assembly.vector, base, ciphertext, view.content s.flash⟩
    d.Lies ∧ Engine.UnderWay view d length.toUInt32
      ((s.exchange config chip a).after.engine,
        { flash := (s.exchange config chip a).after.flash }) := by
  intro d
  refine exchange_of_begins hbegins (Q := fun st =>
    d.Lies ∧ Engine.UnderWay view d length.toUInt32 (st.1, { flash := st.2.flash }))
    fun hidle _ hadmits hwhole => ?_
  obtain ⟨hbase, hblocks⟩ := hwhole
  have hsize : length.toUInt32.toNat = length.toNat := by simp
  have hlies : d.Lies :=
    { base := hbase
      length := by
        rw [hlength, ← hsize]
        exact hblocks
      limit_lt := by
        rw [Delivery.limit, hlength, ← hsize]
        exact Nat.lt_of_le_of_lt hadmits.2 config.appLimit.toNat_lt }
  have hstands := d.stands_zero (hconsistent.nothingPending (by simp [hidle])) rfl rfl hfaithful.2
  refine (Delivery.seek_stands honest hpage hfaithful.1 ?_ hstands rfl).mono
    (fun _ st hst => ⟨hlies, hst.1, rfl, hst.2.2.2⟩) fun _ _ _ => trivial
  simp [Board.ReadFailed]

theorem exchange_begins (honest : chip.Honest view) (hs : s.Reachable config chip view)
    (hpos : 0 < page) (hunit : page % Block.size = 0) {base : UInt32} {length : UInt16}
    (hbegins : (s.exchange config chip a).Begins base length) {ciphertext : Bytes}
    (hlength : ciphertext.length = length.toNat)
    (hlast : (base.toNat + length.toNat - 1) / page * page + page < UInt32.size) :
    let d : Delivery :=
      ⟨config.key, s.engine.assembly.vector, base, ciphertext, view.content s.flash⟩
    d.Fits page ∧ Engine.UnderWay view d length.toUInt32
      ((s.exchange config chip a).after.engine,
        { flash := (s.exchange config chip a).after.flash }) := by
  intro d
  have hpage : page < UInt32.size := by omega
  obtain ⟨hlies, hunderWay⟩ :=
    exchange_underWay honest hpage (hs.faithful honest hpage) hs.consistent hbegins hlength
  refine ⟨⟨hpos, hunit, hlies.base, hlies.length, ?_⟩, hunderWay⟩
  rw [Delivery.limit, hlength]
  exact hlast

/-- Once a transfer is complete, its range holds the decrypted ciphertext and the rest of flash is as
it was when the transfer was accepted, whatever packets the ciphertext came in. -/
theorem completed_transfer_delivers (config : Config) (chip : NorFlash σ) (view : NorFlash.View σ)
    (honest : chip.Honest view) (hpos : 0 < page) (hunit : page % Block.size = 0)
    (s : Snapshot page σ) (hs : s.Reachable config chip view) (a : Arrival) (base : UInt32)
    (length : UInt16) (hbegins : (s.exchange config chip a).Begins base length)
    (hlast : (base.toNat + length.toNat - 1) / page * page + page < UInt32.size)
    (ciphertext : Bytes) (hlength : ciphertext.length = length.toNat) (as : List Arrival)
    (hsuits : ∀ b ∈ as, b.packet.Suits base ciphertext)
    (hflash : ∀ x ∈ (s.exchange config chip a).after.exchanges config chip as, ¬x.FlashFailed)
    (hends : (s.exchange config chip a).after.IdleOnceAfter config chip as) :
    let after := s.run config chip (a :: as)
    let vector := s.engine.assembly.vector
    (view.content after.flash).peek base.toNat length.toNat =
        Chain.plaintext config.key vector ciphertext ∧
      (∀ x, x < base.toNat ∨ base.toNat + length.toNat ≤ x →
        view.content after.flash x = view.content s.flash x) ∧
      after.engine.assembly.vector = Chain.nextVector vector ciphertext := by
  intro after vector
  obtain ⟨hfits, hunderWay⟩ := exchange_begins honest hs hpos hunit hbegins hlength hlast
  have hsize : length.toUInt32.toNat = ciphertext.length := by
    rw [hlength]
    simp
  obtain ⟨_, hcontent, hvector⟩ :=
    run_delivered honest hfits rfl hsize hunderWay hsuits hflash hends
  simp only [Delivery.contentAfter, Delivery.vectorAfter, List.take_length] at hcontent hvector
  have hplain := Chain.length_plaintext config.key vector hfits.length
  refine ⟨?_, fun x hx => ?_, hvector⟩
  · change (view.content ((s.exchange config chip a).after.run config chip as).flash).peek _ _ = _
    rw [hcontent, ← hlength, ← hplain]
    exact FlashContent.peek_lay
  · change view.content ((s.exchange config chip a).after.run config chip as).flash x = _
    rw [hcontent]
    exact FlashContent.lay_outside (by rw [hplain, hlength]; exact hx)

end Snapshot

end FirmwareUpdate

/-! ### A transfer in pieces -/

namespace FirmwareUpdate

namespace SmallDevice

def transfer : Arrival := command { command := .data, length := 16, address := 48 }

/-- The second half of a block of zeros, which comes too early, and then all of it. -/
def pieces : List Arrival :=
  [data (PayloadPacket.encode { address := 56, payload := List.replicate 8 0 }),
    data (PayloadPacket.encode { address := 48, payload := List.replicate 16 0 })]

/-- The small device once it has accepted the transfer. -/
def receiving : Snapshot 16 FlashMemory := (start.exchange config chip transfer).after

theorem transfer_begins : (start.exchange config chip transfer).Begins 48 16 := by decide +kernel

theorem steps_pieces :
    (receiving.exchanges config chip pieces).map
        (fun x => (x.before.engine.session.activity, x.events)) =
      [(.transfer 48 16, #[.progress (.resync 48)]),
        (.transfer 48 16,
          #[.flash (.erase 48 64) none, .flash (.write 48 plain) none,
            .report { expected := 16, progress := 16, bytes := 16, elapsedMs := 0 }])] := by
  decide +kernel

/-- A packet of zeros suits a ciphertext of zeros. -/
theorem zeros_suit {p : PayloadPacket} {count : Nat} (hpayload : p.payload = List.replicate count 0)
    (hsize : p.encode.length < UInt32.size) (hdecode : PayloadPacket.decode p.encode = .ok p)
    {base : UInt32} {length : Nat} :
    (Packet.data p.encode).Suits base (List.replicate length 0) := by
  refine ⟨hsize, fun q hq i b hb hlow hhigh => ?_⟩
  obtain rfl : p = q := Except.ok.inj (hdecode.symm.trans hq)
  rw [List.length_replicate] at hhigh
  simp only [hpayload, List.getElem?_replicate] at hb ⊢
  split at hb
  · rw [if_pos (by omega)]
    exact hb
  · simp at hb

theorem pieces_suit : ∀ b ∈ pieces, b.packet.Suits 48 (List.replicate 16 0) := by
  intro b hb
  simp only [pieces, List.mem_cons, List.not_mem_nil, or_false] at hb
  rcases hb with rfl | rfl
  · exact zeros_suit rfl (by decide) rfl
  · exact zeros_suit rfl (by decide) rfl

theorem idleOnceAfter_pieces : receiving.IdleOnceAfter config chip pieces := by decide +kernel

end SmallDevice

open SmallDevice in
theorem completed_transfer_delivers_pieces :
    (start.exchange SmallDevice.config SmallDevice.chip transfer).Begins 48 16 ∧
      receiving.IdleOnceAfter SmallDevice.config SmallDevice.chip pieces ∧
      (FlashMemory.view.content
        (start.run SmallDevice.config SmallDevice.chip (transfer :: pieces)).flash).peek 48 16 =
          Chain.plaintext SmallDevice.config.key start.engine.assembly.vector (List.replicate 16 0) := by
  have hflash : ∀ x ∈ receiving.exchanges SmallDevice.config SmallDevice.chip pieces,
      ¬x.FlashFailed := by
    rintro x hx ⟨call, e, hmem⟩
    have hin := List.mem_map_of_mem (f := fun x => (x.before.engine.session.activity, x.events)) hx
    rw [steps_pieces] at hin
    simp only [List.mem_cons, Prod.mk.injEq, List.not_mem_nil, or_false] at hin
    rcases hin with ⟨_, hevents⟩ | ⟨_, hevents⟩ <;> simp [hevents] at hmem
  have h := Snapshot.completed_transfer_delivers SmallDevice.config SmallDevice.chip FlashMemory.view
    (FlashMemory.chip_atomic 16).toHonest (by decide) (by decide) start ⟨_, [], flash_sound, rfl⟩
    transfer 48 16 transfer_begins (by decide) (List.replicate 16 0) (by decide) pieces pieces_suit
    hflash idleOnceAfter_pieces
  exact ⟨transfer_begins, idleOnceAfter_pieces, h.1⟩

end FirmwareUpdate
