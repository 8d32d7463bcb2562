import FirmwareUpdate.Proofs.Assembly
import FirmwareUpdate.Proofs.Engine.Exchange
import FirmwareUpdate.Proofs.Session

/-!
# What a packet can do

The rule for the latch reduces a packet to the step it asks for. A property of the board that every
flash call preserves is preserved by every packet; one that reads preserve is preserved by every
packet that is neither `done` nor payload of a transfer.
-/

namespace FirmwareUpdate.Engine

open Attempt

variable {page : Nat} {σ : Type} {config : Config} {chip : NorFlash σ} {now : UInt64}
variable {e : Engine page} {board : Board σ}
variable {post : Unit → Engine page × Board σ → Prop}
variable {refused : UpdateError → Engine page × Board σ → Prop}

/-- The step that a packet asks of an engine which is not halted. -/
def handle (config : Config) (chip : NorFlash σ) (now : UInt64) : Packet → Step page σ Unit
  | .control bytes => do
    let packet ← Attempt.ofPacket (ControlPacket.decode bytes)
    execute config chip now packet
  | .data bytes => consume config chip now bytes

/-- A packet that carries a command asks for it. -/
theorem handle_of_command {packet : Packet} {p : ControlPacket} (h : packet.command? = some p) :
    (handle config chip now packet : Step page σ Unit) = execute config chip now p := by
  cases packet with
  | data bytes => simp [Packet.command?] at h
  | control bytes =>
      rw [Packet.command?] at h
      cases hdecode : ControlPacket.decode bytes with
      | error error => simp [hdecode, Except.toOption] at h
      | ok packet =>
          obtain rfl : packet = p := by simpa [hdecode, Except.toOption] using h
          rw [handle, hdecode]
          rfl

theorem receive_eq_latched (packet : Packet) :
    (receive config chip now packet : Step page σ Unit) =
      latched chip (handle config chip now packet) := by
  cases packet <;> rfl

/-- The engine with the latch closed if the error is fatal. -/
def haltedBy (e : Engine page) (error : UpdateError) : Engine page :=
  { e with halted := e.halted || error.isFatal }

theorem haltedBy_of_not_fatal {error : UpdateError} (h : error.isFatal = false) :
    e.haltedBy error = e := by
  simp only [haltedBy, h, Bool.or_false]

theorem yields_receive {packet : Packet} :
    (receive config chip now packet).Yields (e, board) post refused ↔
      (e.halted → refused .halted (e, board)) ∧
      (¬e.halted → chip.eraseSize ≠ page →
        refused (.eraseUnit page chip.eraseSize) ({ e with halted := true }, board)) ∧
      (¬e.halted → chip.eraseSize = page →
        (handle config chip now packet).Yields (e, board) post
          fun err st => refused err (st.1.haltedBy err, st.2)) := by
  rw [receive_eq_latched]
  simp only [Yields, EStateM.run, latched]
  by_cases hhalted : e.halted
  · simp [hhalted]
  · by_cases hunit : chip.eraseSize = page
    · simp only [hhalted, hunit]
      cases handle config chip now packet (e, board) <;> simp [haltedBy]
    · simp [hhalted, hunit]

theorem yields_handle_control {bytes : Bytes}
    (hmalformed : ∀ error, ControlPacket.decode bytes = .error error →
      refused (.malformed error) (e, board))
    (hexecute : ∀ packet, ControlPacket.decode bytes = .ok packet →
      (execute config chip now packet).Yields (e, board) post refused) :
    (handle config chip now (.control bytes)).Yields (e, board) post refused := by
  rw [handle, yields_bind]
  cases h : ControlPacket.decode bytes with
  | error error =>
      rw [yields_ofPacket_error]
      exact hmalformed error h
  | ok packet =>
      rw [yields_ofPacket_ok]
      exact hexecute packet h

@[simp] theorem yields_beginTransfer {address length : UInt32} :
    (beginTransfer config chip now address length).Yields (e, board) post refused ↔
      (e.session.activity ≠ .idle → refused .busy (e, board)) ∧
      (e.session.activity = .idle →
        (length = 0 → refused .emptyRange (e, board)) ∧
        (length ≠ 0 →
          (¬config.Admits address length → refused (.outsideRegion address length) (e, board)) ∧
          (config.Admits address length →
            (address.toNat % Block.size ≠ 0 ∨ length.toNat % Block.size ≠ 0 →
              refused (.unaligned address length) (e, board)) ∧
            (address.toNat % Block.size = 0 ∧ length.toNat % Block.size = 0 →
              (Assembly.seek config.key chip address).Yields (e.assembly, board)
                (fun _ st => post ()
                  ({ e with
                      assembly := st.1
                      session := e.session.beginTransfer now address length }, st.2))
                (fun err st => refused err ({ e with assembly := st.1 }, st.2)))))) := by
  simp only [beginTransfer, yields_bind, yields_requireIdle, yields_refuseIf, yields_assemble,
    yields_updateSession, Decidable.not_not, not_or, ne_eq]

@[simp] theorem yields_awaitVector {length : UInt16} :
    (awaitVector length : Step page σ Unit).Yields (e, board) post refused ↔
      (e.session.activity ≠ .idle → refused .busy (e, board)) ∧
      (e.session.activity = .idle →
        (length.toNat ≠ Block.size →
          refused (.chainVectorLength Block.size length.toNat) (e, board)) ∧
        (length.toNat = Block.size →
          post () ({ e with session := { e.session with activity := .chainVector } }, board))) := by
  simp only [awaitVector, yields_bind, yields_requireIdle, yields_refuseIf, yields_await,
    Decidable.not_not, ne_eq]

@[simp] theorem yields_awaitDigest {address size : UInt32} :
    (awaitDigest address size : Step page σ Unit).Yields (e, board) post refused ↔
      (e.session.activity ≠ .idle → refused .busy (e, board)) ∧
      (e.session.activity = .idle →
        (address = 0 ∨ size = 0 → refused .emptyRange (e, board)) ∧
        (¬(address = 0 ∨ size = 0) →
          post () ({ e with session := { e.session with activity := .digest address size } },
            board))) := by
  simp only [awaitDigest, yields_bind, yields_requireIdle, yields_refuseIf, yields_await]

@[simp] theorem yields_confirmImage :
    (confirmImage config chip).Yields (e, board) post refused ↔
      (e.session.activity ≠ .idle → refused .busy (e, board)) ∧
      (e.session.activity = .idle →
        (e.session.verdict ≠ .matched → refused .unverified (e, board)) ∧
        (e.session.verdict = .matched →
          (Confirmation.run chip config.appBase).Yields board
            (fun _ board => post () ({ e with assembly := e.assembly.discard }, board))
            (fun err board => refused err ({ e with assembly := e.assembly.discard }, board)))) := by
  simp only [confirmImage, yields_bind, yields_requireIdle, yields_current, yields_refuseIf,
    yields_update, yields_onBoard, ne_eq, Session.verdict_eq_matched_iff, Decidable.not_not]
  rfl

@[simp] theorem yields_restart :
    (restart config : Step page σ Unit).Yields (e, board) post refused ↔
      post () ({ e with session := {}, assembly := e.assembly.discard },
        { board with events := board.events.push (.connection config.connection) }) := Iff.rfl

/-- A command is refused for a cause that is not fatal before anything is done, or it is carried out. -/
theorem yields_execute {packet : ControlPacket}
    (hrefused : ∀ err, err.isFatal = false → refused err (e, board))
    (htaken : match packet.command with
      | .restart =>
        post ()
          ({ e with session := {}, assembly := e.assembly.discard },
            { board with events := board.events.push (.connection config.connection) })
      | .data =>
        e.session.activity = .idle → packet.length.toUInt32 ≠ 0 →
          config.Admits packet.address packet.length.toUInt32 →
            packet.address.toNat % Block.size = 0 ∧ packet.length.toUInt32.toNat % Block.size = 0 →
              (Assembly.seek config.key chip packet.address).Yields (e.assembly, board)
                (fun _ st => post ()
                  ({ e with
                      assembly := st.1
                      session :=
                        e.session.beginTransfer now packet.address packet.length.toUInt32 }, st.2))
                (fun err st => refused err ({ e with assembly := st.1 }, st.2))
      | .vector =>
        e.session.activity = .idle →
          post () ({ e with session := { e.session with activity := .chainVector } }, board)
      | .digest =>
        e.session.activity = .idle →
          post ()
            ({ e with
                session :=
                  { e.session with
                    activity := .digest packet.address packet.length.toUInt32 } }, board)
      | .done =>
        e.session.activity = .idle → e.session.verdict = .matched →
          (Confirmation.run chip config.appBase).Yields board
            (fun _ board => post () ({ e with assembly := e.assembly.discard }, board))
            (fun err board => refused err ({ e with assembly := e.assembly.discard }, board))
      | .reset => post () ({ e with resetRequested := true }, board)
      | .ping =>
        post () (e, { board with
          events := board.events.push
            (.report (e.session.throughput now packet.length.toUInt32)) })) :
    (execute config chip now packet).Yields (e, board) post refused := by
  obtain ⟨command, length, address⟩ := packet
  cases command with
  | restart => exact yields_restart.mpr htaken
  | data =>
      refine yields_beginTransfer.mpr ⟨fun _ => hrefused _ rfl, fun hidle => ⟨fun _ => hrefused _ rfl,
        fun hpos => ⟨fun _ => hrefused _ rfl, fun hadmits => ⟨fun _ => hrefused _ rfl, ?_⟩⟩⟩⟩
      exact htaken hidle hpos hadmits
  | vector =>
      exact yields_awaitVector.mpr ⟨fun _ => hrefused _ rfl, fun hidle => ⟨fun _ => hrefused _ rfl,
        fun _ => htaken hidle⟩⟩
  | digest =>
      exact yields_awaitDigest.mpr ⟨fun _ => hrefused _ rfl, fun hidle => ⟨fun _ => hrefused _ rfl,
        fun _ => htaken hidle⟩⟩
  | done =>
      exact yields_confirmImage.mpr ⟨fun _ => hrefused _ rfl, fun hidle => ⟨fun _ => hrefused _ rfl,
        htaken hidle⟩⟩
  | reset => exact htaken
  | ping => exact htaken

@[simp] theorem yields_checkDigest {address size : UInt32} {expected : Digest} :
    (checkDigest chip address size expected).Yields (e, board) post refused ↔
      (Region.digest chip address size).Yields board
        (fun actual board =>
          (actual = expected →
            post ()
              ({ e with session := { e.session with digestFailed := false, verified := true } },
                board)) ∧
          (actual ≠ expected →
            refused (.digestMismatch address)
              ({ e with session := { e.session with digestFailed := true, verified := false } },
                { board with
                  events := board.events.push (.progress (.digestFailed address)) })))
        (fun err board => refused err (e, board)) := by
  simp only [checkDigest, yields_bind, yields_onBoard, yields_ite, yields_updateSession,
    yields_emit, yields_throw, ne_eq]

theorem yields_receiveDigest {address size : UInt32} {bytes : Bytes}
    (hlength : bytes.length ≠ Sha256.digestSize →
      refused (.digestLength Sha256.digestSize bytes.length)
        ({ e with session := { e.session with activity := .idle } }, board))
    (hdigest : ∀ expected : Digest, bytes = expected.toList →
      (checkDigest chip address size expected).Yields
        ({ e with session := { e.session with activity := .idle } }, board) post refused) :
    (receiveDigest chip address size bytes).Yields (e, board) post refused := by
  rw [receiveDigest, yields_bind, yields_await]
  cases h : Bytes.exactly? Sha256.digestSize bytes with
  | none =>
      apply hlength
      intro hbytes
      simp [Bytes.exactly?, hbytes] at h
  | some expected => exact hdigest expected (Bytes.exactly?_eq_some_iff.mp h).symm

theorem yields_receiveVector {bytes : Bytes}
    (hlength : bytes.length ≠ Block.size →
      refused (.chainVectorLength Block.size bytes.length)
        ({ e with session := { e.session with activity := .idle } }, board))
    (hvector : ∀ vector : Block, bytes = vector.toList →
      post ()
        ({ e with
            session := { e.session with activity := .idle }
            assembly := { e.assembly with vector } }, board)) :
    (receiveVector bytes : Step page σ Unit).Yields (e, board) post refused := by
  rw [receiveVector, yields_bind, yields_await]
  cases h : Bytes.exactly? Block.size bytes with
  | none =>
      apply hlength
      intro hbytes
      simp [Bytes.exactly?, hbytes] at h
  | some vector => exact hvector vector (Bytes.exactly?_eq_some_iff.mp h).symm

/-! ### Data -/

theorem yields_consume {bytes : Bytes} :
    (consume config chip now bytes).Yields (e, board) post refused ↔
      (config.maxPacket < bytes.length →
        refused (.malformed (.tooLong config.maxPacket bytes.length))
          ({ e with
              session := { e.session with activity := dropExpected e.session.activity } },
            board)) ∧
      (¬config.maxPacket < bytes.length →
        match e.session.activity with
        | .idle => refused .noTransfer (e, board)
        | .chainVector => (receiveVector bytes).Yields (e, board) post refused
        | .digest address size =>
          (receiveDigest chip address size bytes).Yields (e, board) post refused
        | .transfer base length =>
          (receivePayload config chip now (base + length) bytes).Yields (e, board) post
            refused) := by
  simp only [consume, yields_bind, yields_current, yields_ite, yields_await, yields_throw]
  cases e.session.activity <;> rfl

@[simp] theorem yields_complete {limit : UInt32} :
    (complete config chip now limit).Yields (e, board) post refused ↔
      (Assembly.commit config.key chip).Yields (e.assembly, board)
        (fun _ st => post ()
          ({ e with
              session := { e.session with activity := .idle }
              assembly := st.1 },
            { st.2 with
              events := st.2.events.push
                (.report (e.session.throughput now (limit - e.session.transferBase))) }))
        (fun err st => refused err ({ e with assembly := st.1 }, st.2)) := by
  simp only [complete, yields_bind, yields_assemble, yields_await, yields_current, yields_report]
  rfl

theorem stopWithin?_eq_some {limit address length stop : UInt32}
    (h : stopWithin? limit address length = some stop) :
    address.toNat + length.toNat = stop.toNat ∧ stop.toNat ≤ limit.toNat := by
  unfold stopWithin? at h
  split at h
  · next sum hsum =>
      split at h
      · next hle =>
          cases h
          exact ⟨Address.add?_eq_some_iff.mp hsum, UInt32.le_iff_toNat_le.mp hle⟩
      · simp at h
  · simp at h

theorem stopWithin?_eq_none {limit address length : UInt32}
    (h : stopWithin? limit address length = none) :
    limit.toNat < address.toNat + length.toNat := by
  unfold stopWithin? at h
  split at h
  · next sum hsum =>
      split at h
      · simp at h
      · next hle =>
          rw [Address.add?_eq_some_iff.mp hsum]
          exact Nat.lt_of_not_le fun hle' => hle (UInt32.le_iff_toNat_le.mpr hle')
  · next hsum =>
      rw [Address.add?_eq_none_iff] at hsum
      exact Nat.lt_of_lt_of_le limit.toNat_lt hsum

theorem yields_takePayload {limit : UInt32} {packet : PayloadPacket}
    (hoverrun :
      stopWithin? limit packet.address (UInt32.ofNat packet.payload.length) = none →
        refused (.overrun (packet.address + UInt32.ofNat packet.payload.length) limit) (e, board))
    (htake : ∀ stop,
      stopWithin? limit packet.address (UInt32.ofNat packet.payload.length) = some stop →
        (copy config chip packet.payload).Yields
          ({ e with
              session :=
                { e.session with
                  cursor := packet.address
                  bytesRead := e.session.bytesRead + UInt32.ofNat packet.payload.length } },
            board)
          (fun _ st =>
            (stop = limit → (complete config chip now limit).Yields st post refused) ∧
              (stop ≠ limit → post () st))
          refused) :
    (takePayload config chip now limit packet).Yields (e, board) post refused := by
  simp only [takePayload]
  cases h : stopWithin? limit packet.address (UInt32.ofNat packet.payload.length) with
  | none => exact hoverrun h
  | some stop =>
      simp only [yields_bind, yields_updateSession, yields_ite, yields_pure]
      exact htake stop h

theorem yields_receivePayload {limit : UInt32} {bytes : Bytes}
    (hmalformed : ∀ error, PayloadPacket.decode bytes = .error error →
      refused (.malformed error) (e, board))
    (hpayload : ∀ packet, PayloadPacket.decode bytes = .ok packet →
      match e.placement packet.address with
      | .ahead =>
        post () (e, { board with
          events := board.events.push (.progress (.resync e.session.cursor)) })
      | .settled => post () (e, board)
      | .wanted => (takePayload config chip now limit packet).Yields (e, board) post refused) :
    (receivePayload config chip now limit bytes).Yields (e, board) post refused := by
  rw [receivePayload, yields_bind]
  cases h : PayloadPacket.decode bytes with
  | error error => exact hmalformed error h
  | ok packet =>
      have hplaced := hpayload packet h
      rw [yields_ofPacket_ok, yields_bind, yields_current]
      split <;> simp_all

theorem copy_nil : (copy config chip [] : Step page σ Unit) = pure () := by
  rw [copy]

theorem yields_copy_cons {b : UInt8} {bs : Bytes} :
    (copy config chip (b :: bs)).Yields (e, board) post refused ↔
      (Assembly.seek config.key chip e.session.cursor).Yields (e.assembly, board)
        (fun _ st =>
          (Assembly.insert e.session.cursor (b :: bs)).Yields st
            (fun taken st =>
              (copy config chip (bs.drop (taken - 1))).Yields
                ({ e with
                    assembly := st.1
                    session :=
                      { e.session with cursor := e.session.cursor + UInt32.ofNat taken } },
                  st.2)
                post refused)
            (fun err st => refused err ({ e with assembly := st.1 }, st.2)))
        (fun err st => refused err ({ e with assembly := st.1 }, st.2)) := by
  rw [copy]
  simp only [yields_bind, yields_current, yields_assemble, yields_updateSession]

/-! ### What a packet preserves -/

/-- The copying loop preserves what taking up units, laying bytes and moving the cursor preserve. -/
theorem copy_keeps {P : Engine page × Board σ → Prop}
    (hseek : ∀ address, (assemble (Assembly.seek config.key chip address)).Keeps P)
    (hinsert : ∀ address bytes,
      (assemble (Assembly.insert address bytes) : Step page σ Nat).Keeps P)
    (hcursor : ∀ (e : Engine page) board cursor, P (e, board) →
      P ({ e with session := { e.session with cursor } }, board)) :
    ∀ bytes, (copy config chip bytes).Keeps P := by
  intro bytes
  induction h : bytes.length using Nat.strongRecOn generalizing bytes with
  | ind n ih =>
      cases bytes with
      | nil =>
          rw [copy_nil]
          exact keeps_pure
      | cons b bs =>
          rintro ⟨e, board⟩ hst
          rw [copy]
          simp only [yields_bind, yields_current]
          refine (hseek _ _ hst).mono (fun _ st hP => ?_) fun _ _ hP => hP
          refine (hinsert _ _ _ hP).mono (fun taken st hP => ?_) fun _ _ hP => hP
          rw [yields_updateSession]
          refine ih _ ?_ (bs.drop (taken - 1)) rfl _ (hcursor _ _ _ hP)
          subst h
          simp only [List.length_drop, List.length_cons]
          omega

/-- The copying loop changes nothing in the engine but the assembly and the cursor. -/
theorem copy_frame {bytes : Bytes} :
    (copy config chip bytes).Yields (e, board)
      (fun _ st => st.1 =
        { e with
          session := { e.session with cursor := st.1.session.cursor }
          assembly := st.1.assembly })
      fun _ st => st.1 =
        { e with
          session := { e.session with cursor := st.1.session.cursor }
          assembly := st.1.assembly } := by
  have hassemble {α : Type} (attempt : Attempt (Assembly page × Board σ) α) :
      (assemble attempt).Keeps fun st : Engine page × Board σ =>
        st.1 =
          { e with
            session := { e.session with cursor := st.1.session.cursor }
            assembly := st.1.assembly } := by
    rintro ⟨e', board'⟩ hst
    refine yields_assemble.mpr (yields_of_forall (fun _ st => ?_) fun _ st => ?_)
    · simp only at hst ⊢
      rw [hst]
    · simp only at hst ⊢
      rw [hst]
  refine copy_keeps (fun _ => hassemble _) (fun _ _ => hassemble _) ?_ bytes (e, board) rfl
  intro e' board' cursor hst
  simp only at hst ⊢
  rw [hst]

/-- The engine is halted if it was before, and a reset is asked for if it was before. -/
def SameFlags (e : Engine page) (st : Engine page × Board σ) : Prop :=
  st.1.halted = e.halted ∧ st.1.resetRequested = e.resetRequested

theorem copy_sameFlags {bytes : Bytes} :
    (copy config chip bytes).Yields (e, board) (fun _ st => SameFlags e st)
      fun _ st => SameFlags e st :=
  copy_frame.mono
    (fun _ _ hst => ⟨(congrArg Engine.halted hst :), (congrArg Engine.resetRequested hst :)⟩)
    fun _ _ hst => ⟨(congrArg Engine.halted hst :), (congrArg Engine.resetRequested hst :)⟩

/-- No data packet halts the engine by itself, and none asks for a reset. -/
theorem consume_sameFlags {bytes : Bytes} :
    (consume config chip now bytes).Yields (e, board) (fun _ st => SameFlags e st)
      fun _ st => SameFlags e st := by
  have hsame : SameFlags e (e, board) := ⟨rfl, rfl⟩
  refine yields_consume.mpr ⟨fun _ => hsame, fun _ => ?_⟩
  split
  · exact hsame
  · exact yields_receiveVector (fun _ => hsame) fun _ _ => hsame
  · exact yields_receiveDigest (fun _ => hsame) fun _ _ => yields_checkDigest.mpr
      (yields_of_forall (fun _ _ => ⟨fun _ => hsame, fun _ => hsame⟩) fun _ _ => hsame)
  · refine yields_receivePayload (fun _ _ => hsame) fun packet _ => ?_
    split
    · exact hsame
    · exact hsame
    · refine yields_takePayload (fun _ => hsame) fun stop _ => ?_
      exact copy_sameFlags.mono (fun _ st hkept => ⟨fun _ => yields_complete.mpr
        (yields_of_forall (fun _ _ => hkept) fun _ _ => hkept), fun _ => hkept⟩) fun _ _ hkept => hkept

variable {P : Board σ → Prop}

theorem assemble_keeps {α : Type} {attempt : Attempt (Assembly page × Board σ) α}
    (h : attempt.Keeps fun st => P st.2) :
    (assemble attempt).Keeps fun st : Engine page × Board σ => P st.2 := by
  rintro ⟨e, board⟩ hst
  exact yields_assemble.mpr (h (e.assembly, board) hst)

theorem hashFrom_keeps (h : ∀ address length, (Board.read chip address length).Keeps P)
    (hasher : Sha256.Hasher) (address : UInt32) (remaining : Nat) :
    (Region.hashFrom chip hasher address remaining).Keeps P := by
  induction remaining using Nat.strongRecOn generalizing hasher address with
  | ind remaining ih =>
      rw [Region.hashFrom]
      split
      · exact keeps_pure
      · refine (h _ _).bind fun piece => ih _ ?_ _ _
        simp only [Region.pieceSize]
        omega

theorem digest_keeps (h : ∀ address length, (Board.read chip address length).Keeps P)
    (address size : UInt32) :
    (Region.digest chip address size).Keeps P := by
  unfold Region.digest
  split
  · exact keeps_throw
  · exact (hashFrom_keeps h _ _ _).bind fun _ => keeps_pure

theorem confirmation_keeps (hread : ∀ address length, (Board.read chip address length).Keeps P)
    (record : UInt32)
    (hwrite : (Board.write chip (record + BootRecord.tagOffset)
      (LittleEndian.encode32 RecordTag.confirmedWord)).Keeps P) :
    (Confirmation.run chip record).Keeps P := by
  have hword : ∀ address, (Confirmation.readWord chip address).Keeps P := fun _ =>
    (hread _ _).bind fun _ => keeps_pure
  intro board hP
  rw [Confirmation.run, yields_bind]
  refine (hword _ board hP).mono (fun tag board hP => ?_) fun _ _ hP => hP
  simp only [yields_ite, yields_pure, yields_throw, Confirmation.program, yields_bind,
    yields_refuseIf]
  refine ⟨fun _ => hP, fun _ => ⟨fun _ => ?_, fun _ => hP⟩⟩
  refine (hwrite board hP).mono (fun _ board hP => ?_) fun _ _ hP => hP
  exact (hword _ board hP).mono (fun _ _ hP => ⟨fun _ => hP, fun _ => hP⟩) fun _ _ hP => hP

/-- Payload packets do to the board what flash calls do to it. -/
theorem receivePayload_keeps (h : Board.KeptByCalls chip P) (limit : UInt32) (bytes : Bytes) :
    (receivePayload config chip now limit bytes).Keeps
      fun st : Engine page × Board σ => P st.2 := by
  have hcommit : (Assembly.commit config.key chip).Keeps
      fun st : Assembly page × Board σ => P st.2 :=
    Assembly.commit_keeps h.erase h.write
  have hcopy (bytes : Bytes) : (copy config chip bytes).Keeps
      fun st : Engine page × Board σ => P st.2 :=
    copy_keeps (fun _ => assemble_keeps (Assembly.seek_keeps h.read h.erase h.write))
      (fun _ _ => assemble_keeps Assembly.insert_keeps) (fun _ _ _ hP => hP) bytes
  rintro ⟨e, board⟩ hP
  refine yields_receivePayload (fun _ _ => hP) fun packet _ => ?_
  split
  · exact h.emit (.progress _) id board hP
  · exact hP
  · refine yields_takePayload (fun _ => hP) fun stop _ => ?_
    refine Yields.mono (hcopy _ _ hP) (fun _ st hP => ⟨fun _ => ?_, fun _ => hP⟩) fun _ _ hP => hP
    obtain ⟨e, board⟩ := st
    rw [yields_complete]
    exact Yields.mono (hcommit _ hP) (fun _ _ hP => h.emit (.report _) id _ hP) fun _ _ hP => hP

/-- Commands do to the board what reads do, apart from taking up a unit and confirming. -/
theorem execute_keeps (h : Board.KeptByReads chip P) {packet : ControlPacket}
    (hseek : e.session.activity = .idle → ∀ address,
      (Assembly.seek config.key chip address).Yields (e.assembly, board) (fun _ st => P st.2)
        fun _ st => P st.2)
    (hwrite : packet.command = .done → (Board.write chip (config.appBase + BootRecord.tagOffset)
      (LittleEndian.encode32 RecordTag.confirmedWord)).Keeps P)
    (hP : P board) :
    (execute config chip now packet).Yields (e, board) (fun _ st => P st.2) fun _ st => P st.2 := by
  apply yields_execute (fun _ _ => hP)
  cases hcommand : packet.command with
  | restart => exact h.emit (.connection _) id board hP
  | data => exact fun hidle _ _ _ => hseek hidle _
  | vector => exact fun _ => hP
  | digest => exact fun _ => hP
  | done => exact fun _ _ => confirmation_keeps h.read _ (hwrite hcommand) board hP
  | reset => exact hP
  | ping => exact h.emit (.report _) id board hP

/-- Data packets do to the board what reads do, apart from payload. -/
theorem consume_keeps (h : Board.KeptByReads chip P) {bytes : Bytes}
    (hpayload : ∀ base length, e.session.activity = .transfer base length →
      (receivePayload config chip now (base + length) bytes).Yields (e, board)
        (fun _ st => P st.2) fun _ st => P st.2)
    (hP : P board) :
    (consume config chip now bytes).Yields (e, board) (fun _ st => P st.2) fun _ st => P st.2 := by
  refine yields_consume.mpr ⟨fun _ => hP, fun _ => ?_⟩
  split
  · exact hP
  · exact yields_receiveVector (fun _ => hP) fun _ _ => hP
  · refine yields_receiveDigest (fun _ => hP) fun _ _ => yields_checkDigest.mpr ?_
    refine Yields.mono (digest_keeps h.read _ _ board hP) (fun _ board hP => ⟨fun _ => hP, fun _ => ?_⟩)
      fun _ _ hP => hP
    exact h.emit (.progress _) id board hP
  · next hactivity => exact hpayload _ _ hactivity

/-- What every flash call and every message preserve, every packet preserves. -/
theorem receive_keeps (h : Board.KeptByCalls chip P) (packet : Packet) :
    (receive config chip now packet).Keeps fun st : Engine page × Board σ => P st.2 := by
  rintro ⟨e, board⟩ hP
  refine yields_receive.mpr ⟨fun _ => hP, fun _ _ => hP, fun _ _ => ?_⟩
  cases packet with
  | control bytes =>
      refine yields_handle_control (fun _ _ => hP) fun packet _ => ?_
      refine execute_keeps h.toKeptByReads (fun _ _ => ?_) (fun _ => h.write _ _) hP
      exact Assembly.seek_keeps h.read h.erase h.write (e.assembly, board) hP
  | data bytes =>
      exact consume_keeps h.toKeptByReads
        (fun _ _ _ => receivePayload_keeps h _ _ (e, board) hP) hP

/-! ### Commands during a transfer -/

/-- Session, assembly and flash are as they were, and no flash call was made. -/
structure Undisturbed (before after : Engine page × Board σ) : Prop where
  session : after.1.session = before.1.session
  assembly : after.1.assembly = before.1.assembly
  flash : after.2.flash = before.2.flash
  calls : ∀ call failure, .flash call failure ∈ after.2.events → .flash call failure ∈ before.2.events

/-- While something is awaited a command other than `restart` disturbs nothing. -/
theorem receive_control_undisturbed (hbusy : e.session.activity ≠ .idle) {bytes : Bytes}
    (hcommand : ∀ packet, ControlPacket.decode bytes = .ok packet → packet.command ≠ .restart) :
    (receive config chip now (.control bytes)).Yields (e, board)
      (fun _ st => Undisturbed (e, board) st) fun _ st => Undisturbed (e, board) st := by
  have hsame : Undisturbed (e, board) (e, board) := ⟨rfl, rfl, rfl, fun _ _ h => h⟩
  refine yields_receive.mpr
    ⟨fun _ => hsame, fun _ _ => ⟨rfl, rfl, rfl, fun _ _ h => h⟩, fun _ _ => ?_⟩
  refine yields_handle_control (fun _ _ => ⟨rfl, rfl, rfl, fun _ _ h => h⟩) fun packet hpacket => ?_
  apply yields_execute (fun _ _ => ⟨rfl, rfl, rfl, fun _ _ h => h⟩)
  cases hcase : packet.command with
  | restart => exact absurd hcase (hcommand packet hpacket)
  | data | vector | digest | done => exact fun hidle => absurd hidle hbusy
  | reset => exact ⟨rfl, rfl, rfl, fun _ _ h => h⟩
  | ping => exact ⟨rfl, rfl, rfl, fun _ _ h => by simpa using h⟩

end FirmwareUpdate.Engine

namespace FirmwareUpdate.Snapshot

variable {page : Nat} {σ : Type} {config : Config} {chip : NorFlash σ}
variable {s : Snapshot page σ} {a : Arrival}

/-- What stands after an accepted packet is what the step yields that it asked for. -/
theorem exchange_of_accepted (hanswer : (s.exchange config chip a).answer = .ok ())
    {Q : Engine page × Board σ → Prop}
    (h : (Engine.handle config chip a.now a.packet).Yields (s.engine, { flash := s.flash })
      (fun _ st => Q st) fun _ _ => True) :
    Q ((s.exchange config chip a).after.engine,
      { flash := (s.exchange config chip a).after.flash
        events := (s.exchange config chip a).events }) := by
  refine exchange_of_yields (Q := fun answer e board => answer = .ok () → Q (e, board)) ?_ hanswer
  refine Engine.yields_receive.mpr ⟨fun _ h => by simp at h, fun _ _ h => by simp at h, fun _ _ => ?_⟩
  exact h.mono (fun _ _ hst _ => hst) fun _ _ _ h => by simp at h

/-- What stands once a transfer has been accepted. -/
theorem exchange_of_begins {base : UInt32} {length : UInt16}
    (hbegins : (s.exchange config chip a).Begins base length)
    {Q : Engine page × Board σ → Prop}
    (h : s.engine.session.activity = .idle → length.toUInt32 ≠ 0 →
      config.Admits base length.toUInt32 →
        base.toNat % Block.size = 0 ∧ length.toUInt32.toNat % Block.size = 0 →
          (Assembly.seek config.key chip base).Yields (s.engine.assembly, { flash := s.flash })
            (fun _ st => Q
              ({ s.engine with
                  assembly := st.1
                  session := s.engine.session.beginTransfer a.now base length.toUInt32 }, st.2))
            fun _ _ => True) :
    Q ((s.exchange config chip a).after.engine,
      { flash := (s.exchange config chip a).after.flash
        events := (s.exchange config chip a).events }) := by
  obtain ⟨hanswer, hcommand⟩ := hbegins
  rw [exchange_arrival] at hcommand
  apply exchange_of_accepted hanswer
  rw [Engine.handle_of_command hcommand]
  exact Engine.yields_execute (fun _ _ => trivial) h

end FirmwareUpdate.Snapshot
