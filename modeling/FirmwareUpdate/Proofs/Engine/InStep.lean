import FirmwareUpdate.Proofs.Coupling
import FirmwareUpdate.Proofs.Engine.Consistent
import FirmwareUpdate.Proofs.Engine.Payload

/-!
# Engines in step

Two engines with the same session take payload in the same way, as long as the units they assemble are
alike in what taking up units, laying bytes in and committing look at. They take other packets in the same
way as long as the boards are alike in what checks and confirmations look at.
-/

namespace FirmwareUpdate.Engine

open Attempt

variable {page : Nat} {σ : Type} {config : Config} {chip : NorFlash σ} {now : UInt64}
variable {e e' : Engine page} {board board' : Board σ}

section Rules

variable {α β : Type} {post : β → Engine page × Board σ → Engine page × Board σ → Prop}
variable {refused : UpdateError → Engine page × Board σ → Engine page × Board σ → Prop}
variable {apart : Engine page × Board σ → Engine page × Board σ → Prop}

theorem couples_current_bind {next next' : Engine page → Step page σ β} :
    (current >>= next).Couples (current >>= next') (e, board) (e', board') post refused apart ↔
      (next e).Couples (next' e') (e, board) (e', board') post refused apart := by
  simp only [Couples, yields_bind, yields_current]

theorem couples_update_bind {f f' : Engine page → Engine page} {next next' : Unit → Step page σ β} :
    (update f >>= next).Couples (update f' >>= next') (e, board) (e', board') post refused apart ↔
      (next ()).Couples (next' ()) (f e, board) (f' e', board') post refused apart := by
  simp only [Couples, yields_bind, yields_update]

theorem couples_updateSession_bind {f f' : Session → Session} {next next' : Unit → Step page σ β} :
    (updateSession f >>= next).Couples (updateSession f' >>= next') (e, board) (e', board') post
        refused apart ↔
      (next ()).Couples (next' ()) ({ e with session := f e.session }, board)
        ({ e' with session := f' e'.session }, board') post refused apart :=
  couples_update_bind

theorem couples_await_bind {activity : Activity} {next next' : Unit → Step page σ β} :
    (await activity >>= next).Couples (await activity >>= next') (e, board) (e', board') post refused
        apart ↔
      (next ()).Couples (next' ()) ({ e with session := { e.session with activity } }, board)
        ({ e' with session := { e'.session with activity } }, board') post refused apart :=
  couples_updateSession_bind

/-- Engines that await the same are both idle or both not. -/
theorem couples_requireIdle_bind (hactivity : e'.session.activity = e.session.activity)
    {next next' : Unit → Step page σ β}
    (hbusy : e.session.activity ≠ .idle → refused .busy (e, board) (e', board'))
    (hidle : e.session.activity = .idle →
      (next ()).Couples (next' ()) (e, board) (e', board') post refused apart) :
    (requireIdle >>= next).Couples (requireIdle >>= next') (e, board) (e', board') post refused
      apart := by
  have hkept : (refuseIf (e.session.activity ≠ .idle) .busy >>= next).Couples
      (refuseIf (e.session.activity ≠ .idle) .busy >>= next') (e, board) (e', board') post refused
        apart :=
    couples_refuseIf_bind hbusy fun h => hidle (Decidable.not_not.mp h)
  simp only [requireIdle, bind_assoc, couples_current_bind]
  rw [hactivity]
  exact hkept

theorem couples_assemble {x x' : Attempt (Assembly page × Board σ) α}
    {post : α → Engine page × Board σ → Engine page × Board σ → Prop} :
    (assemble x).Couples (assemble x') (e, board) (e', board') post refused apart ↔
      x.Couples x' (e.assembly, board) (e'.assembly, board')
        (fun a t t' => post a ({ e with assembly := t.1 }, t.2) ({ e' with assembly := t'.1 }, t'.2))
        (fun err t t' =>
          refused err ({ e with assembly := t.1 }, t.2) ({ e' with assembly := t'.1 }, t'.2))
        fun t t' => apart ({ e with assembly := t.1 }, t.2) ({ e' with assembly := t'.1 }, t'.2) := by
  simp only [Couples, yields_assemble]

end Rules

/-- Session and latch are the same, and the units under assembly are `Alike`. -/
structure InStep (Alike : Assembly page × Board σ → Assembly page × Board σ → Prop)
    (st st' : Engine page × Board σ) : Prop where
  session : st'.1.session = st.1.session
  halted : st'.1.halted = st.1.halted
  alike : Alike (st.1.assembly, st.2) (st'.1.assembly, st'.2)

theorem InStep.withSession {Alike : Assembly page × Board σ → Assembly page × Board σ → Prop}
    (h : InStep Alike (e, board) (e', board')) (f : Session → Session) :
    InStep Alike ({ e with session := f e.session }, board)
      ({ e' with session := f e'.session }, board') :=
  ⟨congrArg f h.session, h.halted, h.alike⟩

theorem InStep.haltedBy {Alike : Assembly page × Board σ → Assembly page × Board σ → Prop}
    {st st' : Engine page × Board σ} (h : InStep Alike st st') (err : UpdateError) :
    InStep Alike (st.1.haltedBy err, st.2) (st'.1.haltedBy err, st'.2) := by
  refine ⟨h.session, ?_, h.alike⟩
  rw [Engine.haltedBy, Engine.haltedBy, h.halted]

theorem couples_updateSession
    {Alike : Assembly page × Board σ → Assembly page × Board σ → Prop}
    {refused : UpdateError → Engine page × Board σ → Engine page × Board σ → Prop}
    {apart : Engine page × Board σ → Engine page × Board σ → Prop}
    (h : InStep Alike (e, board) (e', board')) {f : Session → Session} :
    (updateSession f).Couples (updateSession f) (e, board) (e', board') (fun _ => InStep Alike) refused
      apart :=
  Or.inl ⟨rfl, h.withSession f⟩

/-- Units that are `Alike` stay alike, and so do the errors, until boards come `Apart`. Once the unit
sought is taken up they are `Found`, and after a refusal `Left`. -/
structure Pairs (config : Config) (chip : NorFlash σ)
    (Alike Found : Assembly page × Board σ → Assembly page × Board σ → Prop)
    (Left : UpdateError → Assembly page × Board σ → Assembly page × Board σ → Prop)
    (Apart : Board σ → Board σ → Prop) : Prop where
  pendingFrom : ∀ {t t'}, Alike t t' → t'.1.pendingFrom = t.1.pendingFrom
  emit : ∀ {t t'}, Alike t t' → ∀ event : Event, ¬event.IsCall →
    Alike (t.1, { t.2 with events := t.2.events.push event })
      (t'.1, { t'.2 with events := t'.2.events.push event })
  left : ∀ {t t'}, Alike t t' → ∀ {err : UpdateError}, err.OfPacket → Left err t t'
  seek : ∀ {t t'}, Alike t t' → ∀ address,
    (Assembly.seek config.key chip address).Couples (Assembly.seek config.key chip address) t t'
      (fun _ => Found) Left fun t t' => Apart t.2 t'.2
  insert : ∀ {t t'}, Found t t' → ∀ address bytes,
    (Assembly.insert address bytes).Couples (Assembly.insert address bytes) t t'
      (fun _ => Alike) Left fun t t' => Apart t.2 t'.2
  commit : ∀ {t t'}, Alike t t' →
    (Assembly.commit config.key chip).Couples (Assembly.commit config.key chip) t t'
      (fun _ => Alike) Left fun t t' => Apart t.2 t'.2
  lasting : ∀ board, Board.KeptByCalls chip (Apart board) ∧ Board.KeptByCalls chip (Apart · board)

variable {Alike Found : Assembly page × Board σ → Assembly page × Board σ → Prop}
variable {Left : UpdateError → Assembly page × Board σ → Assembly page × Board σ → Prop}
variable {Apart : Board σ → Board σ → Prop}

/-- A step that does nothing but make calls leaves boards apart that are apart. -/
theorem Pairs.keepsApart {τ α : Type} (h : Pairs config chip Alike Found Left Apart)
    {x : Attempt (τ × Board σ) α}
    (hx : ∀ {P : Board σ → Prop}, Board.KeptByCalls chip P → x.Keeps fun st => P st.2) :
    x.KeepsApart fun t t' => Apart t.2 t'.2 :=
  fun t => ⟨hx (h.lasting t.2).1, hx (h.lasting t.2).2⟩

theorem copy_keeps_board {P : Board σ → Prop} (h : Board.KeptByCalls chip P) (bytes : Bytes) :
    (copy config chip bytes).Keeps fun st : Engine page × Board σ => P st.2 :=
  copy_keeps (fun _ => assemble_keeps (Assembly.seek_keeps h.read h.erase h.write))
    (fun _ _ => assemble_keeps Assembly.insert_keeps) (fun _ _ _ hP => hP) bytes

theorem complete_keeps_board {P : Board σ → Prop} (h : Board.KeptByCalls chip P) {limit : UInt32} :
    (complete config chip now limit).Keeps fun st : Engine page × Board σ => P st.2 := by
  rintro ⟨e, board⟩ hP
  rw [yields_complete]
  exact (Assembly.commit_keeps h.erase h.write _ hP).mono (fun _ _ hP => h.emit (.report _) id _ hP)
    fun _ _ hP => hP

theorem copy_couples (h : Pairs config chip Alike Found Left Apart)
    (hst : InStep Alike (e, board) (e', board')) {bytes : Bytes} :
    (copy config chip bytes).Couples (copy config chip bytes) (e, board) (e', board')
      (fun _ => InStep Alike) (fun err => InStep (Left err)) fun t t' => Apart t.2 t'.2 := by
  induction hlength : bytes.length using Nat.strongRecOn generalizing bytes e e' board board' with
  | ind n ih =>
      cases bytes with
      | nil =>
          rw [copy_nil]
          exact couples_pure hst
      | cons b bs =>
          have hcopy (bytes : Bytes) : (copy config chip bytes : Step page σ Unit).KeepsApart
              fun t t' => Apart t.2 t'.2 :=
            h.keepsApart fun hP => copy_keeps_board hP bytes
          have hcursor (f : Session → Session) : (updateSession f : Step page σ Unit).KeepsApart
              fun t t' => Apart t.2 t'.2 :=
            h.keepsApart fun _ _ hP => hP
          have hinsert (address : UInt32) (bytes : Bytes) :
              (assemble (Assembly.insert address bytes) : Step page σ Nat).KeepsApart
                fun t t' => Apart t.2 t'.2 :=
            h.keepsApart fun _ => assemble_keeps Assembly.insert_keeps
          have hsession : e'.session = e.session := hst.session
          rw [copy, couples_current_bind, hsession]
          refine Couples.bind (M := fun _ => InStep Found) ?_ ?_
            (fun _ => (hinsert _ _).bind fun _ => (hcursor _).bind fun _ => hcopy _)
            (fun _ => (hinsert _ _).bind fun _ => (hcursor _).bind fun _ => hcopy _)
          · rw [couples_assemble]
            exact (h.seek hst.alike _).mono (fun _ _ _ ht => ⟨hsession, hst.halted, ht⟩)
              (fun _ _ _ ht => ⟨hsession, hst.halted, ht⟩) fun _ _ ht => ht
          rintro _ ⟨e₁, board₁⟩ ⟨e₁', board₁'⟩ hsought
          refine Couples.bind (M := fun taken t t' => InStep Alike t t') ?_ ?_
            (fun _ => (hcursor _).bind fun _ => hcopy _) (fun _ => (hcursor _).bind fun _ => hcopy _)
          · rw [couples_assemble]
            exact (h.insert hsought.alike _ _).mono
              (fun _ _ _ ht => ⟨hsought.session, hsought.halted, ht⟩)
              (fun _ _ _ ht => ⟨hsought.session, hsought.halted, ht⟩) fun _ _ ht => ht
          rintro taken ⟨e₂, board₂⟩ ⟨e₂', board₂'⟩ hinserted
          have hrest : (bs.drop (taken - 1)).length < n := by
            subst hlength
            simp only [List.length_drop, List.length_cons]
            omega
          have hmoved := hinserted.withSession fun s =>
            { s with cursor := s.cursor + UInt32.ofNat taken }
          rw [couples_updateSession_bind]
          exact ih _ hrest hmoved rfl

theorem report_couples (h : Pairs config chip Alike Found Left Apart)
    (hst : InStep Alike (e, board) (e', board')) {expected expected' : UInt32}
    (hexpected : expected' = expected) :
    (report now expected).Couples (report now expected') (e, board) (e', board')
      (fun _ => InStep Alike) (fun err => InStep (Left err)) fun t t' => Apart t.2 t'.2 := by
  have hsession : e'.session = e.session := hst.session
  apply Or.inl
  rw [hsession, hexpected]
  exact ⟨rfl, hsession, hst.halted, h.emit hst.alike _ id⟩

theorem complete_couples (h : Pairs config chip Alike Found Left Apart)
    (hst : InStep Alike (e, board) (e', board')) {limit : UInt32} :
    (complete config chip now limit).Couples (complete config chip now limit) (e, board) (e', board')
      (fun _ => InStep Alike) (fun err => InStep (Left err)) fun t t' => Apart t.2 t'.2 := by
  have hrest : (do
      await .idle
      let e ← current
      report now (limit - e.session.transferBase) : Step page σ Unit).KeepsApart
        fun t t' => Apart t.2 t'.2 :=
    h.keepsApart fun hP st hst => hP.emit (.report _) id st.2 hst
  rw [complete]
  refine Couples.bind (M := fun _ => InStep Alike) ?_ ?_ (fun _ => hrest) fun _ => hrest
  · rw [couples_assemble]
    exact (h.commit hst.alike).mono (fun _ _ _ ht => ⟨hst.session, hst.halted, ht⟩)
      (fun _ _ _ ht => ⟨hst.session, hst.halted, ht⟩) fun _ _ ht => ht
  · rintro _ ⟨e₁, board₁⟩ ⟨e₁', board₁'⟩ hcommitted
    have hidle := hcommitted.withSession fun s => { s with activity := .idle }
    rw [await, couples_updateSession_bind, couples_current_bind]
    exact report_couples h hidle
      (congrArg (fun s : Session => limit - s.transferBase) hidle.session)

theorem takePayload_couples (h : Pairs config chip Alike Found Left Apart)
    (hst : InStep Alike (e, board) (e', board')) {limit : UInt32} {packet : PayloadPacket} :
    (takePayload config chip now limit packet).Couples (takePayload config chip now limit packet)
      (e, board) (e', board') (fun _ => InStep Alike) (fun err => InStep (Left err))
      fun t t' => Apart t.2 t'.2 := by
  have hcomplete : (complete config chip now limit : Step page σ Unit).KeepsApart
      fun t t' => Apart t.2 t'.2 :=
    h.keepsApart fun hP => complete_keeps_board hP
  simp only [takePayload]
  split
  · exact couples_throw ⟨hst.session, hst.halted, h.left hst.alike trivial⟩
  · next stop _ =>
      have hend : (if stop = limit then complete config chip now limit else pure () :
          Step page σ Unit).KeepsApart fun t t' => Apart t.2 t'.2 := by
        split
        · exact hcomplete
        · exact keepsApart_pure
      have htaken := hst.withSession fun s =>
        { s with
          cursor := packet.address
          bytesRead := s.bytesRead + UInt32.ofNat packet.payload.length }
      rw [couples_updateSession_bind]
      refine (copy_couples h htaken).bind (fun _ st st' hcopied => ?_) (fun _ => hend)
        fun _ => hend
      exact couples_ite (fun _ => complete_couples h hcopied) fun _ => couples_pure hcopied

/-- A packet lies alike relative to both cursors. -/
theorem InStep.placement (h : Pairs config chip Alike Found Left Apart)
    (hst : InStep Alike (e, board) (e', board')) (address : UInt32) :
    e'.placement address = e.placement address := by
  have hsession : e'.session = e.session := hst.session
  have hpending : e'.assembly.pendingFrom = e.assembly.pendingFrom := h.pendingFrom hst.alike
  rw [Engine.placement, Engine.placement, hsession, hpending]

/-- Engines in step are still in step after payload, or their boards have come apart. -/
theorem receivePayload_couples (h : Pairs config chip Alike Found Left Apart)
    (hst : InStep Alike (e, board) (e', board')) {limit : UInt32} {bytes : Bytes} :
    (receivePayload config chip now limit bytes).Couples (receivePayload config chip now limit bytes)
      (e, board) (e', board') (fun _ => InStep Alike) (fun err => InStep (Left err))
      fun t t' => Apart t.2 t'.2 := by
  have hsession : e'.session = e.session := hst.session
  rw [receivePayload]
  cases PayloadPacket.decode bytes with
  | error err => exact couples_throw ⟨hst.session, hst.halted, h.left hst.alike trivial⟩
  | ok packet =>
      rw [couples_ofPacket_bind, couples_current_bind, hst.placement h]
      cases e.placement packet.address with
      | ahead =>
          apply Or.inl
          rw [hsession]
          exact ⟨rfl, hsession, hst.halted, h.emit hst.alike _ id⟩
      | settled => exact couples_pure hst
      | wanted => exact takePayload_couples h hst

/-- Engines take a packet in step if both are halted or they handle it in step. -/
theorem receive_couples {packet : Packet} (Apart : Board σ → Board σ → Prop)
    {post : Unit → Engine page × Board σ → Engine page × Board σ → Prop}
    {refused : UpdateError → Engine page × Board σ → Engine page × Board σ → Prop}
    (hunit : chip.eraseSize = page) (hlatch : e'.halted = e.halted)
    (hhalted : e.halted → refused .halted (e, board) (e', board'))
    (hhandled : ¬e.halted →
      (handle config chip now packet).Couples (handle config chip now packet) (e, board) (e', board')
        post (fun err st st' => refused err (st.1.haltedBy err, st.2) (st'.1.haltedBy err, st'.2))
        fun st st' => Apart st.2 st'.2) :
    (receive config chip now packet).Couples (receive config chip now packet) (e, board) (e', board')
      post refused fun st st' => Apart st.2 st'.2 := by
  refine yields_receive.mpr
    ⟨fun h => ?_, fun _ hne => absurd hunit hne, fun h _ => Yields.mono (hhandled h) ?_ ?_⟩
  · have h' : e'.halted := hlatch.trans h
    exact yields_receive.mpr ⟨fun _ => Or.inl ⟨rfl, hhalted h⟩, fun hnot => absurd h' hnot,
      fun hnot => absurd h' hnot⟩
  · intro _ st hst
    exact yields_receive.mpr ⟨fun h' => absurd (hlatch.symm.trans h') h,
      fun _ hne => absurd hunit hne, fun _ _ => hst.mono (fun _ _ => id) fun _ _ => id⟩
  · intro err st hst
    refine yields_receive.mpr ⟨fun h' => absurd (hlatch.symm.trans h') h,
      fun _ hne => absurd hunit hne, fun _ _ => hst.mono (fun _ _ => id) ?_⟩
    rintro err' st' (⟨rfl, hrefused⟩ | hapart)
    · exact Or.inl ⟨rfl, hrefused⟩
    · exact Or.inr hapart

theorem receive_payload_couples (h : Pairs config chip Alike Found Left Apart)
    (hunit : chip.eraseSize = page) (hst : InStep Alike (e, board) (e', board')) {base length : UInt32}
    (hactivity : e.session.activity = .transfer base length) {bytes : Bytes} :
    (receive config chip now (.data bytes)).Couples (receive config chip now (.data bytes)) (e, board)
      (e', board') (fun _ => InStep Alike) (fun err => InStep (Left err))
      fun st st' => Apart st.2 st'.2 := by
  have hleft {e e' : Engine page} (hst : InStep Alike (e, board) (e', board')) {err : UpdateError}
      (herr : err.OfPacket) : InStep (Left err) (e, board) (e', board') :=
    ⟨hst.session, hst.halted, h.left hst.alike herr⟩
  have hsession : e'.session = e.session := hst.session
  refine receive_couples Apart hunit hst.halted (fun _ => hleft hst trivial) fun _ => ?_
  rw [handle, consume, couples_current_bind, hsession, hactivity]
  refine couples_ite (fun _ => ?_) fun _ => ?_
  · have hkept := hst.withSession fun s => { s with activity := dropExpected (.transfer base length) }
    rw [couples_await_bind]
    have herr : (UpdateError.malformed (.tooLong config.maxPacket bytes.length)).OfPacket := trivial
    exact couples_throw ((hleft hkept herr).haltedBy _)
  · exact (receivePayload_couples h hst).mono (fun _ _ _ => id) (fun err _ _ ht => ht.haltedBy err)
      fun _ _ => id

/-! ### Packets that are no payload -/

/-- Units that are `Alike` stay alike through what packets do that are no payload of a transfer. Chained
after the same vector they are `Seeded`. -/
structure Parallel (config : Config) (chip : NorFlash σ)
    (Alike Seeded : Assembly page × Board σ → Assembly page × Board σ → Prop) : Prop where
  discard : ∀ {t t'}, Alike t t' → Alike (t.1.discard, t.2) (t'.1.discard, t'.2)
  emit : ∀ {t t'}, Alike t t' → ∀ event : Event, ¬event.IsCall →
    Alike (t.1, { t.2 with events := t.2.events.push event })
      (t'.1, { t'.2 with events := t'.2.events.push event })
  seed : ∀ {t t'}, Alike t t' → ∀ vector,
    Seeded ({ t.1 with vector }, t.2) ({ t'.1 with vector }, t'.2)
  seek : ∀ {t t'}, Alike t t' → t.1.NothingPending → ∀ address,
    (Assembly.seek config.key chip address).Couples (Assembly.seek config.key chip address) t t'
      (fun _ => Alike) (fun _ => Alike) fun _ _ => False
  digest : ∀ {a a' board board'}, Alike (a, board) (a', board') → ∀ address size,
    (Region.digest chip address size).Couples (Region.digest chip address size) board board'
      (fun _ b b' => Alike (a, b) (a', b')) (fun _ b b' => Alike (a, b) (a', b')) fun _ _ => False
  confirm : ∀ {a a' board board'}, Alike (a, board) (a', board') →
    (Confirmation.run chip config.appBase).Couples (Confirmation.run chip config.appBase) board board'
      (fun _ b b' => Alike (a.discard, b) (a'.discard, b'))
      (fun _ b b' => Alike (a.discard, b) (a'.discard, b')) fun _ _ => False

variable {Seeded : Assembly page × Board σ → Assembly page × Board σ → Prop}

theorem InStep.discard (h : Parallel config chip Alike Seeded)
    (hst : InStep Alike (e, board) (e', board')) :
    InStep Alike ({ e with assembly := e.assembly.discard }, board)
      ({ e' with assembly := e'.assembly.discard }, board') :=
  ⟨hst.session, hst.halted, h.discard hst.alike⟩

theorem InStep.emit (h : Parallel config chip Alike Seeded)
    (hst : InStep Alike (e, board) (e', board')) {event : Event} (hevent : ¬event.IsCall) :
    InStep Alike (e, { board with events := board.events.push event })
      (e', { board' with events := board'.events.push event }) :=
  ⟨hst.session, hst.halted, h.emit hst.alike event hevent⟩

/-- Commands are carried out in the same way. -/
theorem execute_couples (h : Parallel config chip Alike Seeded)
    (hst : InStep Alike (e, board) (e', board')) (hconsistent : e.Consistent)
    {packet : ControlPacket} :
    (execute config chip now packet).Couples (execute config chip now packet) (e, board) (e', board')
      (fun _ => InStep Alike) (fun _ => InStep Alike) fun _ _ => False := by
  have hsession : e'.session = e.session := hst.session
  have hactivity : e'.session.activity = e.session.activity := congrArg Session.activity hsession
  obtain ⟨command, length, address⟩ := packet
  cases command with
  | restart =>
      have hrestarted := (hst.discard h).withSession fun _ => {}
      exact Or.inl ⟨rfl, hrestarted.emit h id⟩
  | data =>
      refine couples_requireIdle_bind hactivity (fun _ => hst) fun hidle => ?_
      refine couples_refuseIf_bind (fun _ => hst) fun _ => couples_refuseIf_bind (fun _ => hst) fun _ =>
        couples_refuseIf_bind (fun _ => hst) fun _ => ?_
      refine Couples.bind (M := fun _ => InStep Alike) ?_ (fun _ _ _ ht => ?_)
        (fun _ => keepsApart_never) fun _ => keepsApart_never
      · rw [couples_assemble]
        exact (h.seek hst.alike (hconsistent.nothingPending (by simp [hidle])) address).mono
          (fun _ _ _ ht => ⟨hsession, hst.halted, ht⟩) (fun _ _ _ ht => ⟨hsession, hst.halted, ht⟩)
          fun _ _ => id
      · exact couples_updateSession ht
  | vector =>
      exact couples_requireIdle_bind hactivity (fun _ => hst) fun _ =>
        couples_refuseIf_bind (fun _ => hst) fun _ => couples_updateSession hst
  | digest =>
      exact couples_requireIdle_bind hactivity (fun _ => hst) fun _ =>
        couples_refuseIf_bind (fun _ => hst) fun _ => couples_updateSession hst
  | done =>
      refine couples_requireIdle_bind hactivity (fun _ => hst) fun _ => ?_
      rw [couples_current_bind, hsession]
      refine couples_refuseIf_bind (fun _ => hst) fun _ => ?_
      rw [couples_update_bind]
      refine Couples.bind (M := fun _ => InStep Alike) ?_ (fun _ _ _ ht => couples_pure ht)
        (fun _ => keepsApart_never) fun _ => keepsApart_never
      rw [couples_onBoard]
      exact (h.confirm hst.alike).mono (fun _ _ _ ht => ⟨hsession, hst.halted, ht⟩)
        (fun _ _ _ ht => ⟨hsession, hst.halted, ht⟩) fun _ _ => id
  | reset => exact Or.inl ⟨rfl, hst.session, hst.halted, hst.alike⟩
  | ping =>
      refine Or.inl ⟨rfl, ?_⟩
      simp only [hsession]
      exact hst.emit h id

/-- A control packet is handled in the same way. -/
theorem handle_control_couples (h : Parallel config chip Alike Seeded)
    (hst : InStep Alike (e, board) (e', board')) (hconsistent : e.Consistent) {bytes : Bytes} :
    (handle config chip now (.control bytes)).Couples (handle config chip now (.control bytes))
      (e, board) (e', board') (fun _ => InStep Alike) (fun _ => InStep Alike) fun _ _ => False := by
  rw [handle]
  cases ControlPacket.decode bytes with
  | error err => exact couples_throw hst
  | ok packet =>
      rw [couples_ofPacket_bind]
      exact execute_couples h hst hconsistent

/-- A data packet that is no payload of a transfer is taken in the same way. If it is the vector awaited,
both chain after it from then on. -/
theorem consume_couples (h : Parallel config chip Alike Seeded)
    (hst : InStep Alike (e, board) (e', board'))
    (hactivity : ∀ base length, e.session.activity ≠ .transfer base length) {bytes : Bytes} :
    (consume config chip now bytes).Couples (consume config chip now bytes) (e, board) (e', board')
      (fun _ st st' =>
        (e.session.activity = .chainVector ∧ InStep Seeded st st') ∨
          (e.session.activity ≠ .chainVector ∧ InStep Alike st st'))
      (fun _ => InStep Alike) fun _ _ => False := by
  have hsession : e'.session = e.session := hst.session
  rw [consume, couples_current_bind, hsession]
  refine couples_ite (fun _ => ?_) fun _ => ?_
  · have hdropped := hst.withSession fun s =>
      { s with activity := dropExpected e.session.activity }
    rw [couples_await_bind]
    exact couples_throw hdropped
  have hidle := hst.withSession fun s => { s with activity := .idle }
  cases hawaited : e.session.activity with
  | idle => exact couples_throw hst
  | transfer base length => exact absurd hawaited (hactivity base length)
  | chainVector =>
      simp only [receiveVector]
      rw [couples_await_bind]
      cases Bytes.exactly? Block.size bytes with
      | none => exact couples_throw hidle
      | some vector =>
          exact Or.inl ⟨rfl, Or.inl ⟨trivial, hidle.session, hst.halted, h.seed hst.alike vector⟩⟩
  | digest address size =>
      simp only [receiveDigest]
      rw [couples_await_bind]
      cases Bytes.exactly? Sha256.digestSize bytes with
      | none => exact couples_throw hidle
      | some expected =>
          simp only [checkDigest]
          refine Couples.bind (M := fun _ => InStep Alike) ?_ (fun actual st st' ht => ?_)
            (fun _ => keepsApart_never) fun _ => keepsApart_never
          · rw [couples_onBoard]
            exact (h.digest hst.alike address size).mono
              (fun _ _ _ ht => ⟨hidle.session, hst.halted, ht⟩)
              (fun _ _ _ ht => ⟨hidle.session, hst.halted, ht⟩) fun _ _ => id
          split
          · exact (couples_updateSession ht).mono (fun _ _ _ ht => Or.inr ⟨by simp, ht⟩)
              (fun _ _ _ => id) fun _ _ => id
          · have hnotice : ¬(Event.progress (.digestFailed address)).IsCall := id
            have hfailed := ht.withSession fun s => { s with digestFailed := true, verified := false }
            rw [couples_updateSession_bind]
            exact Or.inl ⟨rfl, hfailed.emit h hnotice⟩

end FirmwareUpdate.Engine
