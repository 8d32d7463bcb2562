import FirmwareUpdate.Proofs.Engine.Reception

/-!
# What payload carries along

Payload sets the cursor back, copies its bytes unit by unit and, at the end of the transfer, commits the
last unit. A property of the assembly and the board that goes with the cursor through taking up units,
laying bytes in and committing goes with it through a whole packet.
-/

namespace FirmwareUpdate

theorem PayloadPacket.length_of_decode {bytes : Bytes} {p : PayloadPacket}
    (h : decode bytes = .ok p) : p.payload.length < bytes.length := by
  unfold decode at h
  split at h
  · cases h
    simp only [List.length_cons]
    omega
  · simp at h

theorem PayloadPacket.payload_pos_of_decode {bytes : Bytes} {p : PayloadPacket}
    (h : decode bytes = .ok p) : 0 < p.payload.length := by
  unfold decode at h
  split at h
  · cases h
    exact Nat.succ_pos _
  · simp at h

namespace Engine

open Attempt

variable {page : Nat} {σ : Type} {config : Config} {chip : NorFlash σ} {now : UInt64}
variable {e : Engine page} {board : Board σ}
variable {post : Unit → Engine page × Board σ → Prop}
variable {refused : UpdateError → Engine page × Board σ → Prop}

/-- Payload that is not taken leaves engine and board as they are, up to the latch. -/
theorem yields_receive_payload {base length : UInt32}
    (hactivity : e.session.activity = .transfer base length) {bytes : Bytes}
    (hrefused : ∀ err, err.OfPacket → refused err (e, board))
    (hunit : chip.eraseSize ≠ page →
      refused (.eraseUnit page chip.eraseSize) ({ e with halted := true }, board))
    (hpayload : ¬e.halted → chip.eraseSize = page → bytes.length ≤ config.maxPacket →
      (receivePayload config chip now (base + length) bytes).Yields (e, board) post
        fun err st => refused err (st.1.haltedBy err, st.2)) :
    (receive config chip now (.data bytes)).Yields (e, board) post refused := by
  refine yields_receive.mpr ⟨fun _ => hrefused _ trivial, fun _ => hunit, fun hhalted hsize => ?_⟩
  refine yields_consume.mpr ⟨fun _ => ?_, fun hle => ?_⟩
  · have hkept : ({ e with
        session := { e.session with activity := dropExpected e.session.activity } }).haltedBy
          (.malformed (.tooLong config.maxPacket bytes.length)) = e := by
      rw [haltedBy_of_not_fatal rfl]
      simp only [hactivity, dropExpected]
      rw [← hactivity]
    rw [hkept]
    exact hrefused _ trivial
  · rw [hactivity]
    exact hpayload hhalted hsize (Nat.le_of_not_lt hle)

/-- `At cursor` goes with the cursor through a transfer that ends at `limit`, as long as the bytes are
`Suited` to the address they come at. Once the last unit is committed there is `Ended`, and where a call
is refused with the cursor somewhere there is `Halts`. -/
structure Carries (config : Config) (chip : NorFlash σ) (limit : Nat) (Suited : Nat → Bytes → Prop)
    (At : Nat → Assembly page × Board σ → Prop) (Ended : Assembly page × Board σ → Prop)
    (Halts : UpdateError → Nat → Assembly page × Board σ → Prop) : Prop where
  rest : ∀ {address bytes}, Suited address bytes →
    ∀ taken, Suited (address + taken) (bytes.drop taken)
  rewind : ∀ {cursor address st start}, At cursor st → st.1.pendingFrom = some start →
    start.toNat ≤ address → address ≤ cursor → At address st
  seek : ∀ {address : UInt32} {st}, At address.toNat st → address.toNat < limit →
    (Assembly.seek config.key chip address).Yields st
      (fun _ st => At address.toNat st ∧ st.1.base? = some (Address.unitBase page address))
      (fun err st => Halts err address.toNat st)
  insert : ∀ {address : UInt32} {bytes st}, At address.toNat st →
    st.1.base? = some (Address.unitBase page address) → 0 < bytes.length →
      address.toNat + bytes.length ≤ limit → Suited address.toNat bytes →
        (Assembly.insert address bytes).Yields st
          (fun taken st => 0 < taken ∧ taken ≤ bytes.length ∧ At (address.toNat + taken) st)
          (fun _ _ => False)
  commit : ∀ {st}, At limit st →
    (Assembly.commit config.key chip).Yields st (fun _ st => Ended st) (fun err st => Halts err limit st)

/-- The engine once payload of `count` bytes was taken. -/
def moved (e : Engine page) (assembly : Assembly page) (cursor : UInt32) (count : Nat) :
    Engine page :=
  { e with
    session :=
      { e.session with cursor, bytesRead := e.session.bytesRead + UInt32.ofNat count }
    assembly }

/-- The engine once nothing is awaited any more. -/
def rested (e : Engine page) : Engine page :=
  { e with session := { e.session with activity := .idle } }

variable {limit : UInt32} {Suited : Nat → Bytes → Prop} {At : Nat → Assembly page × Board σ → Prop}
variable {Ended : Assembly page × Board σ → Prop}
variable {Halts : UpdateError → Nat → Assembly page × Board σ → Prop}

/-- What holds at the cursor is carried along as bytes are copied. -/
theorem copy_carries {limit : Nat} (h : Carries config chip limit Suited At Ended Halts)
    (hlimit : limit < UInt32.size) {bytes : Bytes}
    (hat : At e.session.cursor.toNat (e.assembly, board))
    (hend : e.session.cursor.toNat + bytes.length ≤ limit)
    (hsuited : Suited e.session.cursor.toNat bytes) :
    (copy config chip bytes).Yields (e, board)
      (fun _ st => st.1.session.cursor.toNat = e.session.cursor.toNat + bytes.length ∧
        At st.1.session.cursor.toNat (st.1.assembly, st.2))
      fun err st => Halts err st.1.session.cursor.toNat (st.1.assembly, st.2) := by
  induction hlength : bytes.length using Nat.strongRecOn generalizing bytes e board with
  | ind n ih =>
      cases bytes with
      | nil =>
          subst hlength
          rw [copy_nil]
          exact ⟨rfl, hat⟩
      | cons b bs =>
          rw [yields_copy_cons]
          have hlt : e.session.cursor.toNat < limit := by
            simp only [List.length_cons] at hend
            omega
          refine (h.seek hat hlt).mono (fun _ st hst => ?_) fun _ _ hhalts => hhalts
          obtain ⟨hsought, hthere⟩ := hst
          refine (h.insert hsought hthere (by simp) hend hsuited).mono (fun taken st hst => ?_)
            fun _ _ h => h.elim
          obtain ⟨hpos, hle, hinserted⟩ := hst
          have hcursor : (e.session.cursor + UInt32.ofNat taken).toNat =
              e.session.cursor.toNat + taken := Address.toNat_add_ofNat (by omega)
          -- The loop drops the bytes taken from the tail: its first byte is always taken.
          have hdrop : bs.drop (taken - 1) = (b :: bs).drop taken := by
            obtain ⟨k, rfl⟩ := Nat.exists_eq_succ_of_ne_zero (Nat.ne_of_gt hpos)
            simp
          have hrest : ((b :: bs).drop taken).length = (b :: bs).length - taken :=
            List.length_drop
          rw [hdrop]
          rw [← hcursor] at hinserted
          refine Yields.mono (ih ((b :: bs).drop taken).length (by omega) hinserted ?_ ?_ rfl)
            (fun _ st hst => ?_) fun _ _ hhalts => hhalts
          · simp only [hcursor]
            omega
          · simp only [hcursor]
            exact h.rest hsuited taken
          · refine ⟨?_, hst.2⟩
            rw [hst.1]
            simp only [hcursor]
            omega

/-- A packet that is wanted is at the cursor or goes back over pending bytes. -/
theorem Carries.at_wanted {limit : Nat} (h : Carries config chip limit Suited At Ended Halts)
    (hat : At e.session.cursor.toNat (e.assembly, board)) {address : UInt32}
    (hplacement : e.placement address = .wanted) : At address.toNat (e.assembly, board) := by
  unfold placement at hplacement
  split at hplacement
  · simp at hplacement
  · next hbehind =>
      split at hplacement
      · next heq =>
          rw [heq]
          exact hat
      · split at hplacement
        · next start hstart =>
            split at hplacement
            · next hle =>
                rw [UInt32.lt_iff_toNat_lt, Nat.not_lt] at hbehind
                exact h.rewind hat hstart (UInt32.le_iff_toNat_le.mp hle) hbehind
            · simp at hplacement
        · simp at hplacement

/-- A wanted packet runs past the end of the transfer, is refused by a call, or is taken: then the
transfer goes on unless the packet ends it. -/
theorem takePayload_carries (h : Carries config chip limit.toNat Suited At Ended Halts)
    (hat : At e.session.cursor.toNat (e.assembly, board)) {packet : PayloadPacket}
    (hplacement : e.placement packet.address = .wanted)
    (hsize : packet.payload.length < UInt32.size)
    (hsuited : packet.address.toNat + packet.payload.length ≤ limit.toNat →
      At packet.address.toNat (e.assembly, board) → Suited packet.address.toNat packet.payload)
    (hoverrun : limit.toNat < packet.address.toNat + packet.payload.length →
      ∀ stop, refused (.overrun stop limit) (e, board))
    (hmoved : ∀ assembly cursor board',
      cursor.toNat = packet.address.toNat + packet.payload.length → cursor.toNat < limit.toNat →
        At cursor.toNat (assembly, board') →
          post () (e.moved assembly cursor packet.payload.length, board'))
    (hended : ∀ assembly board',
      limit.toNat = packet.address.toNat + packet.payload.length → Ended (assembly, board') →
        post () ((e.moved assembly limit packet.payload.length).rested,
          { board' with
            events := board'.events.push
              (.report ((e.moved assembly limit packet.payload.length).session.throughput now
                (limit - e.session.transferBase))) }))
    (hhalts : ∀ err assembly cursor board', Halts err cursor.toNat (assembly, board') →
      refused err (e.moved assembly cursor packet.payload.length, board')) :
    (takePayload config chip now limit packet).Yields (e, board) post refused := by
  have hwanted := h.at_wanted hat hplacement
  have hlength : (UInt32.ofNat packet.payload.length).toNat = packet.payload.length :=
    UInt32.toNat_ofNat_of_lt' hsize
  refine yields_takePayload (fun hnone => hoverrun ?_ _) fun stop hstop => ?_
  · rw [← hlength]
    exact stopWithin?_eq_none hnone
  · obtain ⟨hsum, hle⟩ := stopWithin?_eq_some hstop
    rw [hlength] at hsum
    have hend : packet.address.toNat + packet.payload.length ≤ limit.toNat := by omega
    have hcopy := copy_carries h limit.toNat_lt (e := e.moved e.assembly packet.address
      packet.payload.length) hwanted hend (hsuited hend hwanted)
    refine (hcopy.and copy_frame).mono (fun _ st hst => ?_) fun err st hst => ?_
    · obtain ⟨e', board'⟩ := st
      obtain ⟨⟨hcursor, hat'⟩, hframe⟩ := hst
      change e' = e.moved e'.assembly e'.session.cursor packet.payload.length at hframe
      have hreached : e'.session.cursor = stop := by
        rw [← UInt32.toNat_inj, hcursor, ← hsum]
        rfl
      refine ⟨fun hlast => ?_, fun hmore => ?_⟩
      · subst hlast
        rw [hreached] at hat' hframe
        rw [yields_complete, hframe]
        refine (h.commit hat').mono (fun _ st hended' => ?_) fun err st hhalts' => ?_
        · exact hended st.1 st.2 hsum.symm hended'
        · exact hhalts err st.1 stop st.2 hhalts'
      · rw [hframe]
        refine hmoved _ _ board' ?_ ?_ hat'
        · rw [hreached, hsum]
        · rw [hreached]
          have hne : stop.toNat ≠ limit.toNat := fun heq => hmore (UInt32.toNat_inj.mp heq)
          omega
    · obtain ⟨e', board'⟩ := st
      obtain ⟨hhalts', hframe⟩ := hst
      change e' = e.moved e'.assembly e'.session.cursor packet.payload.length at hframe
      rw [hframe]
      exact hhalts err e'.assembly e'.session.cursor board' hhalts'

end Engine

end FirmwareUpdate
