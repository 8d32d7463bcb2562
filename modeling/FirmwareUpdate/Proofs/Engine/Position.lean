import FirmwareUpdate.Proofs.Engine.Effects
import FirmwareUpdate.Proofs.Engine.Payload
import FirmwareUpdate.Proofs.Position

/-!
# Where the cursor stands during a transfer

A transfer that is accepted is whole blocks of the application region. Whatever packets come and whatever
the chip answers, the cursor stays in the range of the transfer, so that each unit taken up has a byte of
that range.
-/

namespace FirmwareUpdate

variable {page : Nat} {σ : Type} {config : Config} {chip : NorFlash σ}

/-- The length of the packet fits in a word. -/
def Packet.Sized : Packet → Prop
  | .control _ => True
  | .data bytes => bytes.length < UInt32.size

instance : (packet : Packet) → Decidable packet.Sized
  | .control _ => inferInstanceAs (Decidable True)
  | .data bytes => inferInstanceAs (Decidable (bytes.length < UInt32.size))

namespace Engine

open Attempt

variable {now : UInt64} {e : Engine page} {board : Board σ} {base length : UInt32}
variable {P : Nat → Board σ → Prop} {Halted : Nat → Nat → UpdateError → Board σ → Prop}

/-- What flash calls do to a property indexed by the frontier is carried along a transfer. -/
theorem tracks_carries (config : Config) {base limit : Nat}
    (tracks : Board.Tracks chip page base limit P Halted)
    (hpos : 0 < page) (hfits : page < UInt32.size) (hlimit : limit < UInt32.size) :
    Carries config chip limit (fun _ _ => True) (Assembly.TracksAt base limit P)
      (fun st : Assembly page × Board σ => st.1.NothingPending ∧ st.1.Aligned ∧ P limit st.2)
      (Assembly.HaltsAt base limit Halted) where
  rest _ _ := trivial
  rewind hat hstart hlow hhigh := by
    obtain ⟨hpositioned, hfrontier⟩ := hat.1.rewind hlimit hstart hlow hhigh
    refine ⟨hpositioned, ?_⟩
    rw [hfrontier]
    exact hat.2
  seek hat hlt := Assembly.seek_tracks tracks hpos hfits hlimit hat hlt
  insert hat hthere hbytes hend _ := by
    refine (Assembly.insert_positioned hpos hfits hlimit hat.1 rfl hthere hbytes hend).mono
      (fun taken st hst => ?_) fun _ _ h => h
    obtain ⟨hboard, htaken, hle, hpositioned, hfrontier⟩ := hst
    refine ⟨htaken, hle, hpositioned, ?_⟩
    rw [hfrontier, hboard]
    exact hat.2
  commit {st} hat := by
    have hripe : st.1.Ripe limit limit := by
      intro u s hbuffer hs
      have hspans := hat.1.pending u s hbuffer hs
      have hcursor := hspans.cursor_le
      have hpage := hspans.stop_le_page
      omega
    refine (Assembly.commit_tracks tracks hfits hlimit hat hripe).mono (fun _ st hst => ?_)
      fun _ _ h => h
    obtain ⟨hnothing, hpositioned, hP⟩ := hst
    rw [Assembly.frontier_of_nothing hnothing] at hP
    exact ⟨hnothing, hpositioned.aligned, hP⟩

/-- The transfer of a range is under way, with the cursor in place. -/
structure Transferring (config : Config) (base length : UInt32) (e : Engine page) : Prop where
  activity : e.session.activity = .transfer base length
  admitted : config.Admits base length
  nonempty : length ≠ 0
  whole : base.toNat % Block.size = 0 ∧ length.toNat % Block.size = 0
  transferBase : e.session.transferBase = base
  positioned :
    e.assembly.Positioned base.toNat (base.toNat + length.toNat) e.session.cursor.toNat

/-- The end of a range in the application region is a word. -/
theorem toNat_limit (h : config.Admits base length) :
    (base + length).toNat = base.toNat + length.toNat :=
  Address.toNat_add_of_lt (Nat.lt_of_le_of_lt h.2 config.appLimit.toNat_lt)

theorem Transferring.limit_lt (h : e.Transferring config base length) :
    base.toNat + length.toNat < UInt32.size :=
  Nat.lt_of_le_of_lt h.admitted.2 config.appLimit.toNat_lt

/-- The bytes of the transfer before this address are not pending. -/
def frontier (e : Engine page) : Nat := e.assembly.frontier e.session.cursor.toNat

theorem Transferring.frontier_le (h : e.Transferring config base length) :
    base.toNat ≤ e.frontier ∧ e.frontier ≤ base.toNat + length.toNat := by
  have hfrontier := h.positioned.frontier_le h.limit_lt
  exact ⟨hfrontier.1, Nat.le_trans hfrontier.2 h.positioned.le_limit⟩

/-- The transfer is under way, and the property holds at the frontier. -/
def Tracked (config : Config) (base length : UInt32) (P : Nat → Board σ → Prop)
    (st : Engine page × Board σ) : Prop :=
  st.1.Transferring config base length ∧
    P (st.1.assembly.frontier st.1.session.cursor.toNat) st.2

/-- A call was refused during the transfer, and nothing is pending any more. -/
def Stopped (config : Config) (base length : UInt32)
    (Halted : Nat → Nat → UpdateError → Board σ → Prop) (err : UpdateError)
    (st : Engine page × Board σ) : Prop :=
  st.1.Transferring config base length ∧ st.1.assembly.NothingPending ∧
    ∃ frontier, Halted frontier st.1.session.cursor.toNat err st.2

/-- The transfer is over with nothing pending, and the property holds at its end. -/
def Finished (base length : UInt32) (P : Nat → Board σ → Prop) (st : Engine page × Board σ) : Prop :=
  st.1.session.activity = .idle ∧ st.1.assembly.NothingPending ∧ st.1.assembly.Aligned ∧
    P (base.toNat + length.toNat) st.2

/-- The latch is as it was, and the cursor is short of the end of the transfer if it was before. -/
def Continues (base length : UInt32) (e e' : Engine page) : Prop :=
  e'.halted = e.halted ∧
    (e.session.cursor.toNat < base.toNat + length.toNat →
      e'.session.cursor.toNat < base.toNat + length.toNat)

/-- Payload of a transfer leaves the cursor in place, and the property at the frontier, unless a call
is refused. If it is not taken for another cause nothing changes. -/
theorem receivePayload_tracks
    (tracks : Board.Tracks chip page base.toNat (base.toNat + length.toNat) P Halted)
    (hemit : ∀ frontier event, ¬event.IsCall → (Board.emit event).Keeps (P frontier))
    (hpos : 0 < page) (hfits : page < UInt32.size)
    (h : Tracked config base length P (e, board)) {bytes : Bytes}
    (hsize : bytes.length < UInt32.size) :
    (receivePayload config chip now (base + length) bytes).Yields (e, board)
      (fun _ st => (Tracked config base length P st ∧ Continues base length e st.1) ∨
        Finished base length P st)
      fun err st => (err.OfPacket ∧ st = (e, board)) ∨
        Stopped config base length Halted err st := by
  have htransferring : e.Transferring config base length := h.1
  have hlimit := toNat_limit htransferring.admitted
  have hcarries := tracks_carries config tracks hpos hfits htransferring.limit_lt
  rw [← hlimit] at hcarries
  have hsame : Continues base length e e := ⟨rfl, id⟩
  refine yields_receivePayload (fun _ _ => Or.inl ⟨trivial, rfl⟩) fun packet hpacket => ?_
  split
  · exact Or.inl ⟨⟨htransferring, hemit _ _ (by simp [Event.IsCall]) board h.2⟩, hsame⟩
  · exact Or.inl ⟨h, hsame⟩
  · next hplacement =>
      have hshort := PayloadPacket.length_of_decode hpacket
      have hat : Assembly.TracksAt base.toNat (base + length).toNat P e.session.cursor.toNat
          (e.assembly, board) := by
        rw [hlimit]
        exact ⟨htransferring.positioned, h.2⟩
      have hkept {assembly : Assembly page} {cursor : UInt32} {count : Nat}
          (hpositioned :
            assembly.Positioned base.toNat (base.toNat + length.toNat) cursor.toNat) :
          (e.moved assembly cursor count).Transferring config base length :=
        { htransferring with positioned := hpositioned }
      apply takePayload_carries hcarries hat hplacement (by omega) (fun _ _ => trivial)
      case hoverrun => exact fun _ _ => Or.inl ⟨trivial, rfl⟩
      case hmoved =>
        intro assembly cursor board' _ hlt hat'
        rw [hlimit] at hat' hlt
        exact Or.inl ⟨⟨hkept hat'.1, hat'.2⟩, rfl, fun _ => hlt⟩
      case hended =>
        intro assembly board' _ hended
        obtain ⟨hnothing, haligned, hP⟩ := hended
        rw [hlimit] at hP
        exact Or.inr ⟨rfl, hnothing, haligned, hemit _ _ (by simp [Event.IsCall]) board' hP⟩
      case hhalts =>
        intro err assembly cursor board' hhalts
        obtain ⟨hnothing, hpositioned, hhalted⟩ := hhalts
        rw [hlimit] at hpositioned
        exact Or.inr ⟨hkept hpositioned, hnothing, hhalted⟩

/-- Taking up the first unit of a transfer leaves the cursor at its start. -/
theorem seek_tracked (now : UInt64)
    (tracks : Board.Tracks chip page base.toNat (base.toNat + length.toNat) P Halted)
    (hpos : 0 < page) (hfits : page < UInt32.size) (hadmits : config.Admits base length)
    (hnonempty : length ≠ 0) (hwhole : base.toNat % Block.size = 0 ∧ length.toNat % Block.size = 0)
    (haligned : e.assembly.Aligned) (hnothing : e.assembly.NothingPending)
    (hP : P base.toNat board) :
    (Assembly.seek config.key chip base).Yields (e.assembly, board)
      (fun _ st => Tracked config base length P
        ({ e with assembly := st.1, session := e.session.beginTransfer now base length }, st.2))
      fun err st => st.1.Aligned ∧ ∃ frontier, Halted frontier base.toNat err st.2 := by
  have hlimit : base.toNat + length.toNat < UInt32.size :=
    Nat.lt_of_le_of_lt hadmits.2 config.appLimit.toNat_lt
  have hlt : base.toNat < base.toNat + length.toNat := by
    have hne : length.toNat ≠ 0 := fun hzero => hnonempty (UInt32.toNat_inj.mp hzero)
    omega
  have hat : Assembly.TracksAt base.toNat (base.toNat + length.toNat) P base.toNat
      (e.assembly, board) := by
    refine ⟨Assembly.positioned_of_nothing haligned hnothing (Nat.le_refl _) (Nat.le_of_lt hlt)
      (Or.inl rfl), ?_⟩
    rw [Assembly.frontier_of_nothing hnothing]
    exact hP
  refine (Assembly.seek_tracks tracks hpos hfits hlimit hat hlt).mono (fun _ st hst => ?_)
    fun err st hhalts => ⟨hhalts.2.1.aligned, hhalts.2.2⟩
  exact ⟨⟨rfl, hadmits, hnonempty, hwhole, rfl, hst.1.1⟩, hst.1.2⟩

/-! ### Where transfers end -/

/-- The range is programmed up to its end only if its last unit ends within the address space. -/
theorem tracks_last (chip : NorFlash σ) (hpos : 0 < page) (base limit : Nat) :
    Board.Tracks chip page base limit
      (fun frontier _ => frontier = limit → (limit - 1) / page * page + page < UInt32.size)
      (fun _ _ _ _ => True) where
  read _ hP := yields_of_forall (fun _ _ => hP) fun _ _ => trivial
  program {u stop _} hunit hstop _ := by
    refine yields_of_forall (fun _ _ hlimit => ?_) fun _ _ => trivial
    obtain ⟨k, hk⟩ := hunit.aligned
    have hnonempty := hunit.nonempty
    have hlast : (limit - 1) / page = k := by
      rw [Nat.div_eq_iff hpos, Nat.mul_comm k page, ← hk]
      omega
    rw [hlast, Nat.mul_comm k page, ← hk, ← hstop]
    exact stop.toNat_lt
  unaligned _ _ _ := trivial
  beyond _ _ _ := trivial

/-- A wanted packet does not begin before the frontier. -/
theorem Transferring.frontier_le_of_wanted (h : e.Transferring config base length) {address : UInt32}
    (hplacement : e.placement address = .wanted) : e.frontier ≤ address.toNat := by
  unfold placement at hplacement
  split at hplacement
  · simp at hplacement
  · split at hplacement
    · next heq =>
        rw [heq]
        exact (h.positioned.frontier_le h.limit_lt).2
    · split at hplacement
      · next start hstart =>
          simp only [frontier, Assembly.frontier, hstart, Option.map_some, Option.getD_some]
          split at hplacement
          · next hle => exact UInt32.le_iff_toNat_le.mp hle
          · simp at hplacement
      · simp at hplacement

/-- Once the frontier is at the end of the range, no payload is taken. -/
theorem receivePayload_past (h : e.Transferring config base length)
    (hpast : base.toNat + length.toNat ≤ e.frontier) {bytes : Bytes}
    (hsize : bytes.length < UInt32.size) :
    (receivePayload config chip now (base + length) bytes).Yields (e, board)
      (fun _ st => st.1 = e) fun _ st => st.1 = e := by
  refine yields_receivePayload (fun _ _ => rfl) fun packet hpacket => ?_
  split
  · rfl
  · rfl
  · next hplacement =>
      have hstart := h.frontier_le_of_wanted hplacement
      have hshort := PayloadPacket.length_of_decode hpacket
      have hpayload := PayloadPacket.payload_pos_of_decode hpacket
      refine yields_takePayload (fun _ => rfl) fun stop hstop => ?_
      obtain ⟨hsum, hle⟩ := stopWithin?_eq_some hstop
      rw [toNat_limit h.admitted] at hle
      rw [UInt32.toNat_ofNat_of_lt' (by omega)] at hsum
      omega

/-- Payload ends a transfer only if the last unit of its range ends within the address space. -/
theorem receivePayload_last (hpos : 0 < page) (hfits : page < UInt32.size)
    (h : e.Transferring config base length) {bytes : Bytes} (hsize : bytes.length < UInt32.size) :
    (receivePayload config chip now (base + length) bytes).Yields (e, board)
      (fun _ st => st.1.session.activity = .idle →
        (base.toNat + length.toNat - 1) / page * page + page < UInt32.size)
      fun _ st => st.1.session.activity ≠ .idle := by
  have hbusy {e' : Engine page} (h' : e'.Transferring config base length) :
      e'.session.activity ≠ .idle := by
    rw [h'.activity]
    simp
  by_cases hpast : base.toNat + length.toNat ≤ e.frontier
  · refine (receivePayload_past h hpast hsize).mono (fun _ st hst hidle => ?_) fun _ st hst => ?_
    · exact absurd hidle (hst ▸ hbusy h)
    · exact hst ▸ hbusy h
  · refine (receivePayload_tracks (tracks_last chip hpos _ _) (fun _ _ _ _ hP => hP) hpos hfits
      ⟨h, fun heq => absurd (Nat.le_of_eq heq.symm) hpast⟩ hsize).mono (fun _ st hst hidle => ?_)
      fun _ st hst => ?_
    · rcases hst with ⟨htracked, _⟩ | hfinished
      · exact absurd hidle (hbusy htracked.1)
      · exact hfinished.2.2.2 rfl
    · rcases hst with ⟨_, rfl⟩ | hstopped
      · exact hbusy h
      · exact hbusy hstopped.1

/-- The buffered unit is a whole unit, and a transfer under way has its cursor in place. -/
structure Positioned (config : Config) (e : Engine page) : Prop where
  aligned : e.assembly.Aligned
  transferring : ∀ {base length}, e.session.activity = .transfer base length →
    e.Transferring config base length

theorem positioned_fresh : ({} : Engine page).Positioned config where
  aligned u h := by simp at h
  transferring h := by simp at h

theorem positioned_of_aligned (h : e.assembly.Aligned)
    (hactivity : ∀ base length, e.session.activity ≠ .transfer base length) :
    e.Positioned config :=
  ⟨h, fun htransfer => absurd htransfer (hactivity _ _)⟩

theorem Transferring.positioned_engine (h : e.Transferring config base length) :
    e.Positioned config := by
  refine ⟨h.positioned.aligned, fun {base' length'} hactivity => ?_⟩
  obtain ⟨rfl, rfl⟩ := Activity.transfer.inj (h.activity.symm.trans hactivity)
  exact h

theorem Positioned.haltedBy (h : e.Positioned config) (error : UpdateError) :
    (e.haltedBy error).Positioned config :=
  ⟨h.aligned, fun hactivity => { h.transferring hactivity with }⟩

/-- Whatever the chip answers, something is tracked. -/
theorem tracks_true (chip : NorFlash σ) (base limit : Nat) :
    Board.Tracks chip page base limit (fun _ _ => True) (fun _ _ _ _ => True) :=
  Board.KeptByReads.tracks
    ⟨fun _ _ _ _ => yields_of_forall (fun _ _ => trivial) fun _ _ => trivial, fun _ _ _ _ => trivial⟩
    fun _ _ _ _ => yields_of_forall (fun _ _ => trivial) fun _ _ => trivial

theorem execute_positioned (hpos : 0 < page) (hfits : page < UInt32.size) (hconsistent : e.Consistent)
    (h : e.Positioned config) {packet : ControlPacket} :
    (execute config chip now packet).Yields (e, board) (fun _ st => st.1.Positioned config)
      fun _ st => st.1.Positioned config := by
  apply yields_execute (fun _ _ => h)
  cases packet.command with
  | restart => exact positioned_of_aligned (Assembly.aligned_discard _) (by simp)
  | data =>
      intro hidle hnonempty hadmits hwhole
      refine (seek_tracked now (tracks_true chip _ _) hpos hfits hadmits hnonempty hwhole h.aligned
        (hconsistent.nothingPending (by simp [hidle])) trivial).mono (fun _ st hst => ?_)
        fun err st hst => ?_
      · exact hst.1.positioned_engine
      · exact positioned_of_aligned hst.1 (by simp [hidle])
  | vector => exact fun _ => positioned_of_aligned h.aligned (by simp)
  | digest => exact fun _ => positioned_of_aligned h.aligned (by simp)
  | done =>
      intro hidle _
      have hdone : ({ e with assembly := e.assembly.discard }).Positioned config :=
        positioned_of_aligned (Assembly.aligned_discard _) (by simp [hidle])
      exact yields_of_forall (fun _ _ => hdone) fun _ _ => hdone
  | reset => exact ⟨h.aligned, fun hactivity => { h.transferring hactivity with }⟩
  | ping => exact h

theorem consume_positioned (hpos : 0 < page) (hfits : page < UInt32.size)
    (h : e.Positioned config) {bytes : Bytes} (hsize : bytes.length < UInt32.size) :
    (consume config chip now bytes).Yields (e, board) (fun _ st => st.1.Positioned config)
      fun _ st => st.1.Positioned config := by
  refine yields_consume.mpr ⟨fun _ => ?_, fun _ => ?_⟩
  · cases hactivity : e.session.activity with
    | transfer base length =>
        exact Transferring.positioned_engine { h.transferring hactivity with activity := rfl }
    | idle | chainVector | digest => exact positioned_of_aligned h.aligned (by simp [dropExpected])
  · split
    · exact h
    · exact yields_receiveVector (fun _ => positioned_of_aligned h.aligned (by simp))
        fun _ _ => positioned_of_aligned h.aligned (by simp)
    · exact yields_receiveDigest (fun _ => positioned_of_aligned h.aligned (by simp))
        fun _ _ => yields_checkDigest.mpr (yields_of_forall
          (fun _ _ => ⟨fun _ => positioned_of_aligned h.aligned (by simp),
            fun _ => positioned_of_aligned h.aligned (by simp)⟩)
          fun _ _ => positioned_of_aligned h.aligned (by simp))
    · next hactivity =>
        refine (receivePayload_tracks (tracks_true chip _ _) (fun _ _ _ _ _ => trivial) hpos hfits
          ⟨h.transferring hactivity, trivial⟩ hsize).mono (fun _ st hst => ?_) fun err st hst => ?_
        · rcases hst with ⟨htracked, _⟩ | ⟨hidle, _, haligned, _⟩
          · exact htracked.1.positioned_engine
          · exact positioned_of_aligned haligned (by simp [hidle])
        · rcases hst with ⟨_, rfl⟩ | ⟨htransferring, _⟩
          · exact h
          · exact htransferring.positioned_engine

theorem receive_positioned (hpos : 0 < page) (hfits : page < UInt32.size)
    (hconsistent : e.Consistent) (h : e.Positioned config) {packet : Packet} (hsized : packet.Sized) :
    (receive config chip now packet).Yields (e, board) (fun _ st => st.1.Positioned config)
      fun _ st => st.1.Positioned config := by
  refine yields_receive.mpr ⟨fun _ => h, fun _ _ => ?_, fun _ _ => ?_⟩
  · exact ⟨h.aligned, fun hactivity => { h.transferring hactivity with }⟩
  · cases packet with
    | control bytes =>
        refine yields_handle_control (fun _ _ => h.haltedBy _) fun packet _ => ?_
        exact (execute_positioned hpos hfits hconsistent h).mono (fun _ _ h => h)
          fun _ _ h => h.haltedBy _
    | data bytes =>
        exact (consume_positioned hpos hfits h hsized).mono (fun _ _ h => h) fun _ _ h => h.haltedBy _

end Engine

namespace Snapshot

variable {s : Snapshot page σ} {a : Arrival}

theorem exchange_positioned (hpos : 0 < page) (hfits : page < UInt32.size)
    (hconsistent : s.engine.Consistent) (hs : s.engine.Positioned config) (hsized : a.packet.Sized) :
    (s.exchange config chip a).after.engine.Positioned config :=
  exchange_of_yields (Q := fun _ e _ => e.Positioned config)
    (Engine.receive_positioned hpos hfits hconsistent hs hsized)

theorem run_positioned (hpos : 0 < page) (hfits : page < UInt32.size)
    (hconsistent : s.engine.Consistent) (hs : s.engine.Positioned config) {as : List Arrival}
    (hsized : ∀ b ∈ as, b.packet.Sized) : (s.run config chip as).engine.Positioned config :=
  (run_induction (P := fun s => s.engine.Consistent ∧ s.engine.Positioned config) ⟨hconsistent, hs⟩
    fun _ a ha hs =>
      ⟨exchange_consistent hs.1, exchange_positioned hpos hfits hs.1 hs.2 (hsized a ha)⟩).2

end Snapshot

end FirmwareUpdate
