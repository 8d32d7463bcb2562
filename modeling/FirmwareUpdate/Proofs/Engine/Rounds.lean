import FirmwareUpdate.Proofs.Engine.Counting
import FirmwareUpdate.Proofs.Engine.Latch
import FirmwareUpdate.Proofs.Engine.Resync
import Mathlib.Data.List.Perm.Subperm

/-!
# The rounds of the copying loop

Each round takes up the unit of the cursor, lays bytes into it and moves the cursor past them. The unit taken
up contains the cursor, so at least one byte fits; and the bytes that do not fit belong to later units, so
there is at most one round for each unit.
-/

namespace FirmwareUpdate

variable {page : Nat} {σ : Type} {config : Config} {chip : NorFlash σ}

/-- One round of the loop. -/
structure Round where
  /-- How many bytes were left. -/
  left : Nat
  /-- The address whose unit was to be taken up. -/
  sought : UInt32
  /-- Where bytes were to be laid once it was taken up, and how many were, or why none. -/
  laid : Option (UInt32 × Except UpdateError Nat)

namespace Round

/-- Bytes are laid only where the unit was taken up for, which is not refused, and takes some of them. -/
def Progresses (r : Round) : Prop :=
  ∀ address outcome, r.laid = some (address, outcome) →
    address = r.sought ∧ ∃ taken, outcome = .ok taken ∧ 0 < taken ∧ taken ≤ r.left

/-- The index of the unit. -/
def unit (page : Nat) (r : Round) : Nat := r.sought.toNat / page

end Round

namespace Engine

/-- Takes up the unit of the cursor, lays in what fits of the bytes left, and moves the cursor past it. What
comes of it is the number of bytes taken. -/
def round (config : Config) (chip : NorFlash σ) (rest : Bytes) (st : Engine page × Board σ) :
    Round × EStateM.Result UpdateError (Engine page × Board σ) Nat :=
  let cursor := st.1.session.cursor
  match (assemble (Assembly.seek config.key chip cursor)).run st with
  | .error err st => (⟨rest.length, cursor, none⟩, .error err st)
  | .ok _ st =>
    match (assemble (Assembly.insert st.1.session.cursor rest)).run st with
    | .error err st' =>
      (⟨rest.length, cursor, some (st.1.session.cursor, .error err)⟩, .error err st')
    | .ok taken (e, board) =>
      (⟨rest.length, cursor, some (st.1.session.cursor, .ok taken)⟩, .ok taken
        ({ e with session := { e.session with cursor := e.session.cursor + UInt32.ofNat taken } },
          board))

end Engine

/-- The loop goes through rounds, and has a result: it ends once no bytes are left or a round is refused.
Nothing says that it does. -/
inductive Copying (config : Config) (chip : NorFlash σ) :
    Bytes → Engine page × Board σ → List Round →
      EStateM.Result UpdateError (Engine page × Board σ) Unit → Prop
  | done {st} : Copying config chip [] st [] (.ok () st)
  | refused {rest st round err st'} (left : rest ≠ [])
      (first : Engine.round config chip rest st = (round, .error err st')) :
      Copying config chip rest st [round] (.error err st')
  | next {rest st round taken st' rounds result} (left : rest ≠ [])
      (first : Engine.round config chip rest st = (round, .ok taken st'))
      (later : Copying config chip (rest.drop taken) st' rounds result) :
      Copying config chip rest st (round :: rounds) result

/-- The loop has no choice. -/
theorem Copying.deterministic {rest : Bytes} {st : Engine page × Board σ} {rounds rounds' : List Round}
    {result result' : EStateM.Result UpdateError (Engine page × Board σ) Unit}
    (h : Copying config chip rest st rounds result)
    (h' : Copying config chip rest st rounds' result') : rounds' = rounds ∧ result' = result := by
  induction h generalizing rounds' result' with
  | done =>
      cases h' with
      | done => exact ⟨rfl, rfl⟩
      | refused left | next left => exact absurd rfl left
  | refused left first =>
      cases h' with
      | done => exact absurd rfl left
      | refused _ first' =>
          rw [first] at first'
          cases first'
          exact ⟨rfl, rfl⟩
      | next _ first' =>
          rw [first] at first'
          cases first'
  | next left first later ih =>
      cases h' with
      | done => exact absurd rfl left
      | refused _ first' =>
          rw [first] at first'
          cases first'
      | next _ first' later' =>
          rw [first] at first'
          cases first'
          obtain ⟨rfl, rfl⟩ := ih later'
          exact ⟨rfl, rfl⟩

namespace Engine

open Attempt

variable {e : Engine page} {board : Board σ}

/-- Work on the assembly leaves the session alone. -/
theorem session_of_assemble {α : Type} {attempt : Attempt (Assembly page × Board σ) α} {a : α}
    {st st' : Engine page × Board σ} (h : (assemble attempt).run st = .ok a st') :
    st'.1.session = st.1.session := by
  obtain ⟨e, board⟩ := st
  simp only [EStateM.run, assemble] at h
  split at h
  · cases h
    rfl
  · cases h

/-- The loop copies what is left round by round. -/
theorem run_copy {b : UInt8} {bs : Bytes} {st : Engine page × Board σ} :
    (copy config chip (b :: bs)).run st =
      match (round config chip (b :: bs) st).2 with
      | .error err st => .error err st
      | .ok taken st => (copy config chip (bs.drop (taken - 1))).run st := by
  rw [copy, round]
  simp only [EStateM.run, bind, EStateM.bind, current]
  cases hsought : assemble (Assembly.seek config.key chip st.1.session.cursor) st with
  | error err st' => rfl
  | ok _ st' =>
      dsimp only
      rw [session_of_assemble hsought]
      cases assemble (Assembly.insert st.1.session.cursor (b :: bs)) st' <;> rfl

/-- The unit taken up for an address begins no earlier than the unit that the address is in. For a page that
is no word this is all that can be said. -/
theorem toNat_sub_unitBase_le (address : UInt32) :
    (address - Address.unitBase page address).toNat ≤ address.toNat % page := by
  rw [(Address.toNat_sub_unitBase page address).2]
  rcases Nat.lt_or_ge page UInt32.size with hfits | hlarge
  · rw [Nat.mod_eq_of_lt hfits]
  · rw [Nat.mod_eq_of_lt (Nat.lt_of_lt_of_le address.toNat_lt hlarge)]
    exact Nat.mod_le _ _

/-- A round whose unit could be taken up lays in what fits. -/
theorem round_of_sought {rest : Bytes} {e' : Engine page} {board' : Board σ} {u : UnitBuffer page}
    (hsought : (assemble (Assembly.seek config.key chip e.session.cursor)).run (e, board) =
      .ok () (e', board'))
    (hbuffer : e'.assembly.buffer = some u) (hcontains : u.Contains e.session.cursor) :
    let cursor := e.session.cursor
    let taken := u.room cursor rest.length
    round config chip rest (e, board) =
      (⟨rest.length, cursor, some (cursor, .ok taken)⟩, .ok taken
        ({ e' with
            session := { e.session with cursor := cursor + UInt32.ofNat taken }
            assembly := e'.assembly.lay u cursor rest }, board')) := by
  intro cursor taken
  have hsession : e'.session = e.session := session_of_assemble hsought
  have hlaid : (assemble (Assembly.insert cursor rest)).run (e', board') =
      .ok taken ({ e' with assembly := e'.assembly.lay u cursor rest }, board') := by
    simp only [EStateM.run, assemble, Assembly.insert, hbuffer]
    rw [if_pos hcontains]
  simp only [round, hsought, hsession]
  rw [hlaid]
  simp only [hsession]
  rfl

/-- A round is refused before bytes are laid, or takes some: as many as there are, or those up to the next
unit at least. -/
theorem round_cases (config : Config) (chip : NorFlash σ) (hpos : 0 < page) (e : Engine page)
    (board : Board σ) {rest : Bytes} (left : rest ≠ []) :
    (∃ err st, round config chip rest (e, board) =
        (⟨rest.length, e.session.cursor, none⟩, .error err st)) ∨
      ∃ taken e' board',
        round config chip rest (e, board) =
          (⟨rest.length, e.session.cursor, some (e.session.cursor, .ok taken)⟩,
            .ok taken (e', board')) ∧
        e'.session.cursor = e.session.cursor + UInt32.ofNat taken ∧ 0 < taken ∧ taken ≤ rest.length ∧
        (taken < rest.length →
          e.session.cursor.toNat / page < (e.session.cursor.toNat + taken) / page) := by
  have hseek : (assemble (Assembly.seek config.key chip e.session.cursor)).Yields (e, board)
      (fun _ st => st.1.assembly.base? = some (Address.unitBase page e.session.cursor))
      fun _ _ => True :=
    yields_assemble.mpr (Assembly.seek_interrupts.mono (fun _ _ h => h) fun _ _ _ => trivial)
  unfold Yields at hseek
  cases hsought : (assemble (Assembly.seek config.key chip e.session.cursor)).run (e, board) with
  | error err st =>
      refine Or.inl ⟨err, st, ?_⟩
      simp only [round, hsought]
  | ok _ st =>
      obtain ⟨e', board'⟩ := st
      rw [hsought] at hseek
      obtain ⟨u, hbuffer, hbase⟩ := Option.map_eq_some_iff.mp hseek
      have hcontains := UnitBuffer.contains_of_base hpos hbase
      have hinside := hcontains.2
      have hoffset : (e.session.cursor - u.base).toNat ≤ e.session.cursor.toNat % page :=
        hbase ▸ toNat_sub_unitBase_le e.session.cursor
      have hleft := List.length_pos_iff.mpr left
      refine Or.inr ⟨_, _, _, round_of_sought hsought hbuffer hcontains, rfl, ?_, (u.room_le _ _).1,
        fun hshort => ?_⟩
      · rw [UnitBuffer.room]
        omega
      · -- Bytes are left over only if the unit was filled up to its end.
        have htaken : u.room e.session.cursor rest.length = page - (e.session.cursor - u.base).toNat := by
          rw [UnitBuffer.room] at hshort ⊢
          omega
        have hsplit := Nat.mod_add_div e.session.cursor.toNat page
        rw [htaken, Nat.lt_iff_add_one_le, Nat.le_div_iff_mul_le hpos, Nat.succ_mul, Nat.mul_comm]
        omega

/-! ### Rounds and units -/

/-- The rounds of a loop over `count` bytes from an address on make progress, each in a later unit. -/
structure Progress (page address count : Nat) (rounds : List Round) : Prop where
  progresses : ∀ r ∈ rounds, r.Progresses
  inside : ∀ r ∈ rounds, address ≤ r.sought.toNat ∧ r.sought.toNat < address + count
  units : rounds.Pairwise fun r r' => r.unit page < r'.unit page

theorem progress_nil (page address count : Nat) : Progress page address count [] :=
  ⟨by simp, by simp, List.Pairwise.nil⟩

theorem Progress.cons {address count taken : Nat} {r : Round} {rounds : List Round}
    (h : Progress page (address + taken) (count - taken) rounds) (hr : r.Progresses)
    (hsought : r.sought.toNat = address) (hle : taken ≤ count) (hpos : 0 < count)
    (hnext : taken < count → address / page < (address + taken) / page) :
    Progress page address count (r :: rounds) where
  progresses := List.forall_mem_cons.mpr ⟨hr, h.progresses⟩
  inside := by
    refine List.forall_mem_cons.mpr ⟨by omega, fun r' hr' => ?_⟩
    have hinside := h.inside r' hr'
    omega
  units := by
    refine List.pairwise_cons.mpr ⟨fun r' hr' => ?_, h.units⟩
    have hinside := h.inside r' hr'
    have hlater := Nat.div_le_div_right (c := page) hinside.1
    rw [Round.unit, Round.unit, hsought]
    exact Nat.lt_of_lt_of_le (hnext (by omega)) hlater

/-- There is at most one round for each unit that the range overlaps. -/
theorem Progress.length_le {address count : Nat} {rounds : List Round}
    (h : Progress page address count rounds) :
    rounds.length ≤ (address + count - 1) / page + 1 - address / page := by
  have hdistinct : (rounds.map (Round.unit page)).Nodup :=
    (List.pairwise_map.mpr h.units).imp fun hlt => Nat.ne_of_lt hlt
  have hunits : rounds.map (Round.unit page) ⊆
      List.range' (address / page) ((address + count - 1) / page + 1 - address / page) := by
    intro k hk
    obtain ⟨r, hr, rfl⟩ := List.mem_map.mp hk
    obtain ⟨hlow, hhigh⟩ := h.inside r hr
    have hfirst := Nat.div_le_div_right (c := page) hlow
    have hlast : r.sought.toNat / page ≤ (address + count - 1) / page :=
      Nat.div_le_div_right (by omega)
    rw [List.mem_range'_1, Round.unit]
    omega
  simpa using (hdistinct.subperm hunits).length_le

/-- The loop ends, with what it comes to in the engine, after at most one round for each unit. -/
theorem exists_copying (hpos : 0 < page) {rest : Bytes}
    (hend : e.session.cursor.toNat + rest.length < UInt32.size) :
    ∃ rounds, Copying config chip rest (e, board) rounds ((copy config chip rest).run (e, board)) ∧
      Progress page e.session.cursor.toNat rest.length rounds := by
  -- A round that is not refused takes some of the bytes left, so there are fewer for the rounds after it.
  induction hlength : rest.length using Nat.strongRecOn generalizing rest e board with
  | ind n ih =>
      cases rest with
      | nil =>
          subst hlength
          rw [copy_nil]
          exact ⟨[], .done, progress_nil _ _ _⟩
      | cons b bs =>
          subst hlength
          have left : b :: bs ≠ [] := List.cons_ne_nil b bs
          rcases round_cases config chip hpos e board left with
            ⟨err, st, hround⟩ | ⟨taken, e', board', hround, hcursor, htaken, hle, hnext⟩
          · have hrun : (copy config chip (b :: bs)).run (e, board) = .error err st := by
              rw [run_copy, hround]
            rw [hrun]
            refine ⟨_, .refused left hround, ?_⟩
            exact (progress_nil page _ _).cons (fun _ _ h => by cases h) rfl (Nat.le_refl _)
              (List.length_pos_iff.mpr left) fun h => absurd h (Nat.lt_irrefl _)
          · have hdrop : bs.drop (taken - 1) = (b :: bs).drop taken := by
              obtain ⟨k, rfl⟩ := Nat.exists_eq_succ_of_ne_zero (Nat.ne_of_gt htaken)
              simp
            have hrun : (copy config chip (b :: bs)).run (e, board) =
                (copy config chip ((b :: bs).drop taken)).run (e', board') := by
              rw [run_copy, hround, ← hdrop]
            have hreached : e'.session.cursor.toNat = e.session.cursor.toNat + taken := by
              rw [hcursor]
              exact Address.toNat_add_ofNat (by omega)
            have hrest : ((b :: bs).drop taken).length = (b :: bs).length - taken := List.length_drop
            obtain ⟨rounds, hcopying, hprogress⟩ : ∃ rounds,
                Copying config chip ((b :: bs).drop taken) (e', board') rounds
                  ((copy config chip ((b :: bs).drop taken)).run (e', board')) ∧
                Progress page e'.session.cursor.toNat ((b :: bs).length - taken) rounds :=
              ih _ (by omega) (by omega) hrest
            rw [hrun]
            refine ⟨_, .next left hround hcopying, ?_⟩
            rw [hreached] at hprogress
            have hprogresses : Round.Progresses ⟨(b :: bs).length, e.session.cursor,
                some (e.session.cursor, .ok taken)⟩ := by
              rintro _ _ ⟨⟩
              exact ⟨rfl, taken, rfl, htaken, hle⟩
            exact hprogress.cons hprogresses rfl hle (List.length_pos_iff.mpr left) hnext

/-- The loop that copies a payload from its address on ends as it does in the engine, and cannot end
otherwise. Every round makes progress, in another unit that the payload overlaps. -/
def CopiesInRounds (config : Config) (chip : NorFlash σ) (e : Engine page) (board : Board σ)
    (p : PayloadPacket) : Prop :=
  let st := (e.moved e.assembly p.address p.payload.length, board)
  ∃ rounds,
    Copying config chip p.payload st rounds ((copy config chip p.payload).run st) ∧
    (∀ rounds' result, Copying config chip p.payload st rounds' result →
      rounds' = rounds ∧ result = (copy config chip p.payload).run st) ∧
    Progress page p.address.toNat p.payload.length rounds ∧
    rounds.length ≤ (p.address.toNat + p.payload.length - 1) / page + 1 - p.address.toNat / page

/-- Payload that ends within its transfer is copied in rounds. -/
theorem copiesInRounds (config : Config) (chip : NorFlash σ) (hpos : 0 < page) (e : Engine page)
    (board : Board σ) {limit : UInt32} {p : PayloadPacket} (hsize : p.payload.length < UInt32.size)
    (htakes : e.Takes limit p) : e.CopiesInRounds config chip board p := by
  obtain ⟨stop, hstop⟩ := Option.isSome_iff_exists.mp htakes.2
  obtain ⟨hsum, _⟩ := stopWithin?_eq_some hstop
  rw [UInt32.toNat_ofNat_of_lt' hsize] at hsum
  have hend : p.address.toNat + p.payload.length < UInt32.size := hsum ▸ stop.toNat_lt
  obtain ⟨rounds, hcopying, hprogress⟩ : ∃ rounds,
      Copying config chip p.payload (e.moved e.assembly p.address p.payload.length, board) rounds
        ((copy config chip p.payload).run (e.moved e.assembly p.address p.payload.length, board)) ∧
      Progress page p.address.toNat p.payload.length rounds := exists_copying hpos hend
  exact ⟨rounds, hcopying, fun _ _ h => hcopying.deterministic h, hprogress, hprogress.length_le⟩

/-! ### What payload can be refused for -/

variable {now : UInt64} {base length : UInt32} {Intact : σ → Prop}

/-- Data is accepted, or refused for its own length or for where its payload would end. -/
inductive PayloadAnswer (config : Config) (limit : UInt32) (bytes : Bytes) :
    Except UpdateError Unit → Prop
  | accepted : PayloadAnswer config limit bytes (.ok ())
  | tooLong (long : config.maxPacket < bytes.length) : PayloadAnswer config limit bytes
      (.error (.malformed (.tooLong config.maxPacket bytes.length)))
  | tooShort (short : bytes.length ≤ PayloadPacket.addressSize) : PayloadAnswer config limit bytes
      (.error (.malformed (.tooShort (PayloadPacket.addressSize + 1) bytes.length)))
  | overrun {p : PayloadPacket} (decoded : PayloadPacket.decode bytes = .ok p)
      (past : stopWithin? limit p.address (UInt32.ofNat p.payload.length) = none) :
      PayloadAnswer config limit bytes
        (.error (.overrun (p.address + UInt32.ofNat p.payload.length) limit))

theorem receivePayload_refused (hpos : 0 < page) {limit : UInt32} {bytes : Bytes} :
    (receivePayload config chip now limit bytes).Yields (e, board) (fun _ _ => True)
      fun err _ => err.Interrupts ∨ PayloadAnswer config limit bytes (.error err) := by
  refine yields_receivePayload (fun error herror => ?_) fun packet hdecoded => ?_
  · obtain ⟨hshort, rfl⟩ := PayloadPacket.decode_eq_error_iff.mp herror
    exact Or.inr (.tooShort hshort)
  split
  · trivial
  · trivial
  · refine yields_takePayload (fun hover => Or.inr (.overrun hdecoded hover)) fun stop _ => ?_
    refine (copy_interrupts hpos).mono (fun _ st _ => ?_) fun _ _ => Or.inl
    exact ⟨fun _ => yields_complete.mpr (Assembly.commit_interrupts.mono (fun _ _ => id)
      fun _ _ => Or.inl), fun _ => trivial⟩

/-- On a reliable chip nothing stands in the way of payload. -/
theorem receive_answers
    (reliable : chip.Reliable page config.appBase.toNat config.appLimit.toNat Intact)
    (hpage : page % Block.size = 0) (hpos : 0 < page) (hfits : page < UInt32.size)
    (hintact : Intact board.flash) (h : e.Transferring config base length)
    (hattentive : e.Attentive chip) {bytes : Bytes} (hsize : bytes.length < UInt32.size) :
    (receive config chip now (.data bytes)).Yields (e, board)
      (fun _ _ => PayloadAnswer config (base + length) bytes (.ok ()))
      fun err _ => PayloadAnswer config (base + length) bytes (.error err) := by
  refine hattentive.yields_receive (by simp [h.activity]) ?_
  refine yields_consume.mpr ⟨.tooLong, fun _ => ?_⟩
  rw [h.activity]
  -- The chip refuses no call, so no error interrupts the transfer, and only those of the packet are left.
  have htracks := h.tracks reliable hpage (fun _ => True) fun _ _ _ => trivial
  refine ((receivePayload_tracks htracks (fun _ _ _ _ hP => hP) hpos hfits ⟨h, hintact, trivial⟩
    hsize).and (receivePayload_refused hpos)).mono (fun _ _ _ => .accepted) fun err st hst => ?_
  obtain ⟨⟨hpacket, _⟩ | ⟨_, _, _, hfalse⟩, hinterrupts | hanswer⟩ := hst
  · exact absurd hinterrupts hpacket.not_interrupts
  · exact hanswer
  · exact hfalse.elim
  · exact hfalse.elim

/-! ### Transfers have bytes to await -/

/-- A transfer under way is not empty. -/
def AwaitsBytes (e : Engine page) : Prop :=
  ∀ base length, e.session.activity = .transfer base length → length ≠ 0

theorem awaitsBytes_of_activity (h : ∀ base length, e.session.activity ≠ .transfer base length) :
    e.AwaitsBytes :=
  fun base length hactivity => absurd hactivity (h base length)

theorem AwaitsBytes.congr {e' : Engine page} (h : e.AwaitsBytes)
    (hactivity : e'.session.activity = e.session.activity) : e'.AwaitsBytes := by
  intro base length
  rw [hactivity]
  exact h base length

theorem execute_awaitsBytes (h : e.AwaitsBytes) {packet : ControlPacket} :
    (execute config chip now packet).Yields (e, board) (fun _ st => st.1.AwaitsBytes)
      fun _ st => st.1.AwaitsBytes := by
  apply yields_execute (fun _ _ => h)
  cases packet.command with
  | restart => exact awaitsBytes_of_activity (by simp)
  | data =>
      intro _ hnonempty _ _
      refine yields_of_forall (fun _ _ => ?_) fun _ _ => h
      rintro _ _ ⟨⟩
      exact hnonempty
  | vector => exact fun _ => awaitsBytes_of_activity (by simp)
  | digest => exact fun _ => awaitsBytes_of_activity (by simp)
  | done => exact fun _ _ => yields_of_forall (fun _ _ => h) fun _ _ => h
  | reset => exact h
  | ping => exact h

theorem consume_awaitsBytes (h : e.AwaitsBytes) {bytes : Bytes} :
    (consume config chip now bytes).Yields (e, board) (fun _ st => st.1.AwaitsBytes)
      fun _ st => st.1.AwaitsBytes := by
  refine yields_consume.mpr ⟨fun _ => ?_, fun _ => ?_⟩
  · cases hactivity : e.session.activity with
    | transfer base length => exact h.congr hactivity.symm
    | idle | chainVector | digest => exact awaitsBytes_of_activity (by simp [dropExpected])
  · split
    · exact h
    · exact yields_receiveVector (fun _ => awaitsBytes_of_activity (by simp))
        fun _ _ => awaitsBytes_of_activity (by simp)
    · exact yields_receiveDigest (fun _ => awaitsBytes_of_activity (by simp))
        fun _ _ => yields_checkDigest.mpr (yields_of_forall
          (fun _ _ => ⟨fun _ => awaitsBytes_of_activity (by simp),
            fun _ => awaitsBytes_of_activity (by simp)⟩)
          fun _ _ => awaitsBytes_of_activity (by simp))
    · refine receivePayload_session.mono (fun _ st hst => ?_) fun _ st hst => h.congr hst.2
      rcases hst with hsame | hended
      · exact h.congr hsame.2
      · exact awaitsBytes_of_activity (by simp [hended.2.1])

theorem receive_awaitsBytes (h : e.AwaitsBytes) {packet : Packet} :
    (receive config chip now packet).Yields (e, board) (fun _ st => st.1.AwaitsBytes)
      fun _ st => st.1.AwaitsBytes := by
  refine yields_receive.mpr ⟨fun _ => h, fun _ _ => h, fun _ _ => ?_⟩
  cases packet with
  | control bytes => exact yields_handle_control (fun _ _ => h) fun _ _ => execute_awaitsBytes h
  | data bytes => exact consume_awaitsBytes h

/-- A chip that is reliable where there is something to transfer has units within the address space. -/
theorem fits_of_reliable
    (reliable : chip.Reliable page config.appBase.toNat config.appLimit.toNat Intact)
    (hpos : 0 < page) (hadmits : config.Admits base length) (hnonempty : length ≠ 0) :
    page < UInt32.size := by
  have hbase := UInt32.le_iff_toNat_le.mp hadmits.1
  have hlimit := hadmits.2
  have hlength : length.toNat ≠ 0 := fun hzero => hnonempty (UInt32.toNat_inj.mp hzero)
  have hlow : page * (base.toNat / page) ≤ base.toNat := Nat.mul_div_le _ _
  have hhigh : base.toNat < page * (base.toNat / page) + page := Nat.lt_mul_div_succ _ hpos
  have hunit : IsUnitOf page config.appBase.toNat config.appLimit.toNat (page * (base.toNat / page)) :=
    ⟨Nat.dvd_mul_right _ _, by omega⟩
  have hends := reliable.ends hunit
  omega

end Engine

/-- Nothing is done where nothing is pending. -/
theorem Assembly.run_commit_nothing {key : Aes256.Key} {a : Assembly page} (h : a.NothingPending)
    (board : Board σ) : (commit key chip).run (a, board) = .ok () (a, board) := by
  have hyields : (commit key chip).Yields (a, board) (fun _ st => st = (a, board)) fun _ _ => False :=
    (yields_commit_nothingPending h).mpr rfl
  unfold Attempt.Yields at hyields
  split at hyields
  · next hrun => rw [hrun, hyields]
  · exact hyields.elim

namespace Snapshot

variable {s : Snapshot page σ} {Intact : σ → Prop}

/-- No packet makes a reliable chip fail. -/
theorem exchange_intact {base limit : Nat} (reliable : chip.Reliable page base limit Intact)
    (hintact : Intact s.flash) (a : Arrival) : Intact (s.exchange config chip a).after.flash :=
  exchange_of_yields (Q := fun _ _ board => Intact board.flash)
    (Engine.receive_keeps reliable.kept a.packet (s.engine, { flash := s.flash }) hintact)

theorem run_awaitsBytes (flash : σ) (past : List Arrival) :
    ((⟨{}, flash⟩ : Snapshot page σ).run config chip past).engine.AwaitsBytes :=
  run_induction (P := fun s => s.engine.AwaitsBytes) (Engine.awaitsBytes_of_activity (by simp))
    fun _ _ _ hs => exchange_of_yields (Q := fun _ e _ => e.AwaitsBytes) (Engine.receive_awaitsBytes hs)

/-- In every transfer under way, payload that is taken is copied in rounds that all make progress, at most
one for each unit. On a reliable chip data is refused only for its own length or for where its payload
would end. Outside of a transfer nothing is left to go to flash. -/
theorem copying_progresses (config : Config) (chip : NorFlash σ) (hpos : 0 < page) (flash : σ)
    (past : List Arrival) (hsized : ∀ b ∈ past, b.packet.Sized) :
    let s := (⟨{}, flash⟩ : Snapshot page σ).run config chip past
    (∀ base length, s.engine.session.activity = .transfer base length →
      (∀ board p, p.payload.length < UInt32.size → s.engine.Takes (base + length) p →
        s.engine.CopiesInRounds config chip board p) ∧
      ∀ Intact, chip.Reliable page config.appBase.toNat config.appLimit.toNat Intact →
        page % Block.size = 0 → Intact s.flash →
          ∀ (now : UInt64) (bytes : Bytes), bytes.length < UInt32.size →
            let x := s.exchange config chip ⟨now, .data bytes⟩
            Engine.PayloadAnswer config (base + length) bytes x.answer ∧ Intact x.after.flash) ∧
    ((∀ base length, s.engine.session.activity ≠ .transfer base length) →
      ∀ board, (Assembly.commit config.key chip).run (s.engine.assembly, board) =
        .ok () (s.engine.assembly, board)) := by
  intro s
  refine ⟨fun base length hactivity => ⟨fun board p hsize htakes =>
    Engine.copiesInRounds config chip hpos s.engine board hsize htakes, ?_⟩, fun hidle board => ?_⟩
  · intro Intact reliable hpage hintact now bytes hsize x
    obtain ⟨-, hadmits, -⟩ := (run_located hpos (located_start flash) hsized).1.transfer hactivity
    have hnonempty : length ≠ 0 := run_awaitsBytes flash past base length hactivity
    have hfits := Engine.fits_of_reliable reliable hpos hadmits hnonempty
    have hpositioned : s.engine.Positioned config :=
      run_positioned hpos hfits Engine.consistent_fresh Engine.positioned_fresh hsized
    constructor
    · exact exchange_of_yields (a := ⟨now, .data bytes⟩)
        (Q := fun answer _ _ => Engine.PayloadAnswer config (base + length) bytes answer)
        (Engine.receive_answers reliable hpage hpos hfits hintact (hpositioned.transferring hactivity)
          (run_attentive hpos flash past) hsize)
    · exact exchange_intact reliable hintact _
  · have hconsistent : s.engine.Consistent := run_consistent Engine.consistent_fresh past
    exact Assembly.run_commit_nothing (hconsistent.nothingPending hidle) board

end Snapshot

/-! ### A payload that crosses into a second unit -/

namespace SmallDevice

/-- A transfer of two blocks. -/
def longTransfer : Arrival := command { command := .data, length := 32, address := 48 }

/-- A block and a half. -/
def crossing : PayloadPacket := { address := 48, payload := List.replicate 24 0 }

end SmallDevice

open SmallDevice in
theorem copying_progresses_crossing :
    longTransfer.packet.Sized ∧ (run [longTransfer]).engine.session.activity = .transfer 48 32 ∧
      (run [longTransfer]).engine.Takes 80 crossing ∧
      (run [longTransfer]).engine.CopiesInRounds SmallDevice.config SmallDevice.chip
        { flash := (run [longTransfer]).flash } crossing ∧
      Engine.PayloadAnswer SmallDevice.config 80 crossing.encode
        (next [longTransfer] (data crossing.encode)).answer ∧
      (Assembly.commit SmallDevice.config.key SmallDevice.chip).run
          ((run []).engine.assembly, ({ flash := (run []).flash } : Board FlashMemory)) =
        .ok () ((run []).engine.assembly, { flash := (run []).flash }) := by
  have hsized : longTransfer.packet.Sized := by decide +kernel
  have hactivity : (run [longTransfer]).engine.session.activity = .transfer 48 32 := by decide +kernel
  have htakes : (run [longTransfer]).engine.Takes 80 crossing := by decide +kernel
  have hidle : (run []).engine.session.activity = .idle := by decide +kernel
  have hworks : (run [longTransfer]).flash.Works 16 SmallDevice.config.appBase.toNat
      SmallDevice.config.appLimit.toNat := by
    rw [run, Snapshot.run, Snapshot.run]
    exact Snapshot.exchange_intact SmallDevice.chip_reliable flash_works longTransfer
  have hrun (past : List Arrival) : (⟨{}, SmallDevice.flash⟩ : Snapshot 16 FlashMemory).run
      SmallDevice.config SmallDevice.chip past = run past := rfl
  have hpos : 0 < 16 := by decide
  have h (past : List Arrival) (hsized : ∀ b ∈ past, b.packet.Sized) :=
    Snapshot.copying_progresses SmallDevice.config SmallDevice.chip hpos SmallDevice.flash past hsized
  simp only [hrun] at h
  obtain ⟨hcopies, hanswers⟩ := (h [longTransfer] (by simpa using hsized)).1 48 32 hactivity
  have hanswer := (hanswers _ SmallDevice.chip_reliable (by decide) hworks 0 crossing.encode
    (by decide +kernel)).1
  exact ⟨hsized, hactivity, htakes, hcopies _ _ (by decide +kernel) htakes, hanswer,
    (h [] (by simp)).2 (by simp [hidle]) _⟩

end FirmwareUpdate
