import FirmwareUpdate.Proofs.Engine.Latch
import FirmwareUpdate.Proofs.Engine.Level
import FirmwareUpdate.Proofs.Engine.Marks

/-!
# Packets that are not taken

Some packets only ask for a report or for a restart of the device; others are refused without harm,
or are passed over. At most they make an engine give up a unit that it can read again. So on a steady
chip a run goes as it would have gone without them.
-/

namespace FirmwareUpdate

variable {page : Nat} {σ α : Type} {config : Config} {chip : NorFlash σ} {view : NorFlash.View σ}

/-- Where the tag could be read once it can be read back, so confirming that is refused without stopping
the engine has changed nothing. -/
theorem Confirmation.run_refused (steady : chip.Steady view) {board : Board σ}
    (sound : view.Sound board.flash) (record : UInt32) :
    (run chip record).Yields board (fun _ _ => True)
      fun err board' => err.isFatal = false → board'.Holds view (view.content board.flash) := by
  simp only [run, readWord, program, Attempt.yields_bind, Attempt.yields_pure, Attempt.yields_ite,
    Attempt.yields_throw, Attempt.yields_refuseIf]
  refine Board.yields_call (fun _ flash hread => ?_)
    fun e flash hread _ => steady.read_error sound hread
  obtain ⟨hsound, hcontent, -⟩ := steady.read_ok sound hread
  refine ⟨fun _ => trivial, fun _ => ⟨fun _ => ?_, fun _ hfatal => by cases hfatal⟩⟩
  refine Board.yields_call (fun _ flash' hwrite => ?_) fun e flash' hwrite _ =>
    ⟨steady.write_error hsound hwrite, (steady.write_error_content hsound hwrite).trans hcontent⟩
  refine Board.yields_call (fun _ flash'' _ => ⟨fun _ hfatal => (by cases hfatal), fun _ => trivial⟩)
    fun e flash'' hfailed => ?_
  -- The word was read before, so it cannot be that it cannot be read now.
  obtain ⟨_, _, hagain⟩ :=
    NorFlash.View.FailsAlike.succeeds (steady.read_alike _ _) sound (steady.write_ok hsound hwrite).1
      hread
  rw [hagain] at hfailed
  cases hfailed

namespace Assembly

open Attempt

variable {key : Aes256.Key} {a : Assembly page} {board : Board σ} {address : UInt32}

/-! ### Units that can be read again -/

/-- The chip is what it seems to be, and the buffered unit can be read from it. -/
def Readable (chip : NorFlash σ) (view : NorFlash.View σ) (st : Assembly page × Board σ) : Prop :=
  view.Sound st.2.flash ∧ ∀ u, st.1.buffer = some u → u.Readable chip view

theorem readable_of_buffer_none (sound : view.Sound board.flash) (h : a.buffer = none) :
    Readable chip view (a, board) :=
  ⟨sound, fun u hu => by simp [h] at hu⟩

theorem commit_readable (steady : chip.Steady view) :
    (commit key chip : Attempt (Assembly page × Board σ) Unit).Keeps (Readable chip view) := by
  have hkept : Board.KeptByCalls chip fun board => view.Sound board.flash :=
    Board.keptByCalls_sound steady.toHonest.confined
  rintro ⟨a, board⟩ ⟨sound, hreadable⟩
  rcases a.nothingToCommit_or_pending with hnothing | ⟨u, s, hu, hs⟩
  · exact (yields_commit_nothing hnothing).mpr ⟨sound, hreadable⟩
  rw [yields_commit_pending hu hs]
  split
  · exact readable_of_buffer_none sound rfl
  rw [yields_program]
  split
  · exact readable_of_buffer_none sound rfl
  rw [yields_reprogram]
  refine (hkept.erase _ _ board sound).mono (fun _ b hb => ?_) fun _ _ hb =>
    readable_of_buffer_none hb rfl
  refine (hkept.write _ _ b hb).mono (fun _ _ hb => ⟨hb, ?_⟩) fun _ _ hb =>
    readable_of_buffer_none hb rfl
  rintro _ ⟨⟩
  exact hreadable u hu

theorem load_readable (steady : chip.Steady view) (base : UInt32) :
    (load chip base : Attempt (Assembly page × Board σ) Unit).Keeps (Readable chip view) := by
  rintro ⟨a, board⟩ ⟨sound, -⟩
  rw [yields_load]
  refine Board.yields_call (fun bytes flash hrun => ⟨(steady.read_ok sound hrun).1, ?_⟩)
    fun e flash hrun => readable_of_buffer_none (steady.read_error sound hrun).1 rfl
  rintro _ ⟨⟩ flash' hsound
  exact NorFlash.View.FailsAlike.succeeds (steady.read_alike base page) sound hsound hrun

theorem keptByUse_readable (steady : chip.Steady view) :
    KeptByUse config chip (Readable chip view : Assembly page × Board σ → Prop) where
  seek := by
    rintro address ⟨a, board⟩ hst
    refine yields_seek.mpr ⟨fun _ => hst, fun _ => ?_⟩
    exact (commit_readable steady _ hst).mono (fun _ st hst => load_readable steady _ st hst)
      fun _ _ hst => hst
  insert := by
    rintro address bytes ⟨a, board⟩ ⟨sound, hreadable⟩
    refine yields_insert (fun u hu _ => ⟨sound, ?_⟩) ⟨sound, hreadable⟩
    rintro _ ⟨⟩
    exact hreadable u hu
  commit := commit_readable steady
  discard h := readable_of_buffer_none h.1 rfl
  seed h _ := h
  reads a :=
    { read := fun address length board h =>
        Board.yields_read steady.truthful h.1 (fun _ _ hsound _ _ => ⟨hsound, h.2⟩)
          fun _ _ hsound _ => ⟨hsound, h.2⟩
      emit := fun _ _ => Board.keeps_emit fun _ h => h }
  write a address bytes board h :=
    ((Board.keptByCalls_sound steady.toHonest.confined).write address bytes board h.1).mono
      (fun _ _ hsound => readable_of_buffer_none hsound rfl)
      fun _ _ hsound => readable_of_buffer_none hsound rfl

end Assembly

namespace Engine

open Attempt

variable {now : UInt64} {e : Engine page} {board : Board σ}

/-! ### Packets that are not taken -/

/-- The packet asks for no more than a report or a reset, is refused for a cause that harms nothing, or is
passed over. -/
inductive Untaken (e : Engine page) : Packet → Except UpdateError Unit → Prop
  | asked {packet : Packet} {p : ControlPacket} (hp : packet.command? = some p)
      (hcommand : p.command = .ping ∨ p.command = .reset) : Untaken e packet (.ok ())
  | refused {bytes : Bytes} {err : UpdateError} (hfatal : err.isFatal = false) :
      Untaken e (.control bytes) (.error err)
  | unawaited {bytes : Bytes} : Untaken e (.data bytes) (.error .noTransfer)
  | tooShort {bytes : Bytes} {minimum actual : Nat} :
      Untaken e (.data bytes) (.error (.malformed (.tooShort minimum actual)))
  | overrun {bytes : Bytes} {stop limit : UInt32} :
      Untaken e (.data bytes) (.error (.overrun stop limit))
  /-- A chaining vector or a digest would not be awaited any more. -/
  | tooLong {bytes : Bytes} {maximum actual : Nat} (hvector : e.session.activity ≠ .chainVector)
      (hdigest : ∀ address size, e.session.activity ≠ .digest address size) :
      Untaken e (.data bytes) (.error (.malformed (.tooLong maximum actual)))
  /-- Payload ahead of the cursor, or such as is buffered no more. -/
  | passedOver {bytes : Bytes} {base length : UInt32} {p : PayloadPacket}
      (hactivity : e.session.activity = .transfer base length)
      (hdecode : PayloadPacket.decode bytes = .ok p) (hplaced : e.placement p.address ≠ .wanted) :
      Untaken e (.data bytes) (.ok ())

theorem Untaken.not_fatal {packet : Packet} {err : UpdateError} (h : e.Untaken packet (.error err)) :
    err.isFatal = false := by
  cases h with
  | refused hfatal => exact hfatal
  | unawaited | tooShort | overrun | tooLong => rfl

theorem Untaken.not_interrupts {bytes : Bytes} {err : UpdateError}
    (h : e.Untaken (.data bytes) (.error err)) : ¬err.Interrupts := by
  cases h with
  | unawaited | tooShort | overrun | tooLong => exact id

/-- What an accepted command is that is not taken. -/
theorem Untaken.command {bytes : Bytes} {packet : ControlPacket}
    (h : e.Untaken (.control bytes) (.ok ())) (hdecode : ControlPacket.decode bytes = .ok packet) :
    packet.command = .ping ∨ packet.command = .reset := by
  cases h with
  | asked hp hcommand =>
      rw [Packet.command?, hdecode] at hp
      cases hp
      exact hcommand

/-- What an accepted data packet is that is not taken. -/
theorem Untaken.placement {bytes : Bytes} (h : e.Untaken (.data bytes) (.ok ())) :
    (∃ base length, e.session.activity = .transfer base length) ∧
      ∀ p, PayloadPacket.decode bytes = .ok p → e.placement p.address ≠ .wanted := by
  cases h with
  | asked hp => cases hp
  | passedOver hactivity hdecode hplaced =>
      refine ⟨⟨_, _, hactivity⟩, fun p hp => ?_⟩
      rw [hdecode] at hp
      cases hp
      exact hplaced

/-- Nothing is other than it was, but a unit with nothing pending may have been given up. -/
structure Unchanged (view : NorFlash.View σ) (before after : Engine page × Board σ) : Prop where
  session : after.1.session = before.1.session
  halted : after.1.halted = before.1.halted
  vector : after.1.assembly.vector = before.1.assembly.vector
  pending : after.1.assembly.pending = before.1.assembly.pending
  buffer : after.1.assembly.buffer = before.1.assembly.buffer ∨
    (after.1.assembly.buffer = none ∧ before.1.assembly.NothingPending)
  holds : after.2.Holds view (view.content before.2.flash)

theorem unchanged_refl (sound : view.Sound board.flash) : Unchanged view (e, board) (e, board) :=
  ⟨rfl, rfl, rfl, rfl, Or.inl rfl, sound, rfl⟩

theorem execute_untaken (steady : chip.Steady view) (sound : view.Sound board.flash)
    (hconsistent : e.Consistent) {bytes : Bytes} {packet : ControlPacket}
    (hdecode : ControlPacket.decode bytes = .ok packet) :
    (execute config chip now packet).Yields (e, board)
      (fun _ st => e.Untaken (.control bytes) (.ok ()) → Unchanged view (e, board) st)
      fun err st => e.Untaken (.control bytes) (.error err) → Unchanged view (e, board) st := by
  have hrest (hidle : e.session.activity = .idle) : e.assembly.NothingPending :=
    hconsistent.nothingPending (by simp [hidle])
  have htaken {st : Engine page × Board σ}
      (hcommand : ¬(packet.command = .ping ∨ packet.command = .reset))
      (h : e.Untaken (.control bytes) (.ok ())) : Unchanged view (e, board) st :=
    absurd (h.command hdecode) hcommand
  apply yields_execute (fun _ _ _ => unchanged_refl sound)
  cases hcommand : packet.command with
  | restart => exact htaken (by simp [hcommand])
  | data =>
      -- Nothing is pending, so a transfer that is refused here is one whose first unit cannot be read.
      intro hidle _ _ _
      refine (Assembly.yields_seek_nothing (hrest hidle)).mpr
        ⟨fun _ => htaken (by simp [hcommand]), fun _ => ?_⟩
      rw [Assembly.yields_load]
      refine Board.yields_read steady.truthful sound
        (fun _ _ _ _ _ => htaken (by simp [hcommand])) ?_
      intro err flash hsound hcontent _
      exact ⟨rfl, rfl, rfl, rfl, Or.inr ⟨rfl, hrest hidle⟩, hsound, hcontent⟩
  | vector => exact fun _ => htaken (by simp [hcommand])
  | digest => exact fun _ => htaken (by simp [hcommand])
  | done =>
      -- The unit is given up before the record is looked at, whatever comes of that.
      intro hidle _
      refine (Confirmation.run_refused steady sound _).mono
        (fun _ _ _ => htaken (by simp [hcommand])) ?_
      intro err board' hholds huntaken
      exact ⟨rfl, rfl, rfl, (hrest hidle).symm, Or.inr ⟨rfl, hrest hidle⟩, hholds huntaken.not_fatal⟩
  | reset => exact fun _ => ⟨rfl, rfl, rfl, rfl, Or.inl rfl, sound, rfl⟩
  | ping => exact fun _ => ⟨rfl, rfl, rfl, rfl, Or.inl rfl, sound, rfl⟩

theorem consume_untaken (hpos : 0 < page) (sound : view.Sound board.flash) {bytes : Bytes} :
    (consume config chip now bytes).Yields (e, board)
      (fun _ st => e.Untaken (.data bytes) (.ok ()) → Unchanged view (e, board) st)
      fun err st => e.Untaken (.data bytes) (.error err) → Unchanged view (e, board) st := by
  have hpayload {st : Engine page × Board σ}
      (hactivity : ∀ base length, e.session.activity ≠ .transfer base length)
      (h : e.Untaken (.data bytes) (.ok ())) : Unchanged view (e, board) st := by
    obtain ⟨⟨base, length, htransfer⟩, -⟩ := h.placement
    exact absurd htransfer (hactivity base length)
  refine yields_consume.mpr ⟨fun _ huntaken => ?_, fun _ => ?_⟩
  · cases huntaken with
    | tooLong hvector hdigest =>
        have hawaited : dropExpected e.session.activity = e.session.activity := by
          cases hactivity : e.session.activity with
          | idle | transfer => rfl
          | chainVector => exact absurd hactivity hvector
          | digest address size => exact absurd hactivity (hdigest address size)
        rw [hawaited]
        exact unchanged_refl sound
  · split
    · exact fun _ => unchanged_refl sound
    · next hactivity =>
        exact yields_receiveVector (fun _ h => by cases h) fun _ _ => hpayload (by simp [hactivity])
    · next hactivity =>
        refine yields_receiveDigest (fun _ h => by cases h) fun _ _ => yields_checkDigest.mpr ?_
        refine (Region.digest_refuses_flash _ _ _).mono (fun _ _ _ => ?_) ?_
        · exact ⟨fun _ => hpayload (by simp [hactivity]), fun _ h => by cases h⟩
        · rintro _ _ ⟨failure, rfl⟩ h
          cases h
    · refine yields_receivePayload (fun _ _ _ => unchanged_refl sound) fun packet hdecode => ?_
      split
      · exact fun _ => ⟨rfl, rfl, rfl, rfl, Or.inl rfl, sound, rfl⟩
      · exact fun _ => unchanged_refl sound
      · next hplaced =>
          refine (takePayload_refused hpos).mono (fun _ _ _ h => ?_) fun err st hst h => ?_
          · exact absurd hplaced (h.placement.2 packet hdecode)
          · rcases hst.2 with hinterrupts | ⟨-, rfl⟩
            · exact absurd hinterrupts h.not_interrupts
            · exact unchanged_refl sound

/-- A packet that is not taken leaves everything as it was. -/
theorem receive_untaken (steady : chip.Steady view) (hpos : 0 < page)
    (sound : view.Sound board.flash) (hconsistent : e.Consistent) {packet : Packet} :
    (receive config chip now packet).Yields (e, board)
      (fun _ st => e.Untaken packet (.ok ()) → Unchanged view (e, board) st)
      fun err st => e.Untaken packet (.error err) → Unchanged view (e, board) st := by
  have hhandled : (handle config chip now packet).Yields (e, board)
      (fun _ st => e.Untaken packet (.ok ()) → Unchanged view (e, board) st)
      fun err st => e.Untaken packet (.error err) → Unchanged view (e, board) st := by
    cases packet with
    | control bytes =>
        exact yields_handle_control (fun _ _ _ => unchanged_refl sound)
          fun packet hdecode => execute_untaken steady sound hconsistent hdecode
    | data bytes => exact consume_untaken hpos sound
  refine yields_receive.mpr ⟨fun _ _ => unchanged_refl sound, fun _ _ h => ?_, fun _ _ => ?_⟩
  · cases h.not_fatal
  · refine hhandled.mono (fun _ _ => id) fun err st hst h => ?_
    rw [haltedBy_of_not_fatal h.not_fatal]
    exact hst h

/-! ### Engines side by side -/

/-- Engines that differ in what they read take every packet in the same way. -/
theorem receive_leveled (steady : chip.Steady view) {e' : Engine page} {board' : Board σ}
    (h : InStep (Assembly.Leveled chip view) (e, board) (e', board')) (hconsistent : e.Consistent)
    {packet : Packet} :
    (receive config chip now packet).Couples (receive config chip now packet) (e, board) (e', board')
      (fun _ => InStep (Assembly.Leveled chip view)) (fun _ => InStep (Assembly.Leveled chip view))
      fun _ _ => False := by
  have hhalted : e'.halted = e.halted := h.halted
  by_cases hunit : chip.eraseSize = page
  · cases packet with
    | control bytes =>
        refine receive_couples (fun _ _ => False) hunit hhalted (fun _ => h) fun _ => ?_
        exact (handle_control_couples (parallel_leveled steady) h hconsistent).mono
          (fun _ _ _ => id) (fun err _ _ ht => ht.haltedBy err) fun _ _ => id
    | data bytes =>
        by_cases hactivity : ∃ base length, e.session.activity = .transfer base length
        · obtain ⟨base, length, hactivity⟩ := hactivity
          exact receive_payload_couples (pairs_leveled steady) hunit h hactivity
        · simp only [not_exists] at hactivity
          refine receive_couples (fun _ _ => False) hunit hhalted (fun _ => h) fun _ => ?_
          exact (consume_couples (parallel_leveled steady) h hactivity).mono
            (fun _ _ _ ht => ht.elim And.right And.right) (fun err _ _ ht => ht.haltedBy err)
            fun _ _ => id
  · refine yields_receive.mpr
      ⟨fun hclosed => ?_, fun hopen _ => ?_, fun _ heq => absurd heq hunit⟩
    · exact yields_receive.mpr ⟨fun _ => Or.inl ⟨rfl, h⟩,
        fun hopen' => absurd (hhalted.trans hclosed) hopen', fun _ heq => absurd heq hunit⟩
    · exact yields_receive.mpr ⟨fun hclosed' => absurd (hhalted.symm.trans hclosed') hopen,
        fun _ _ => Or.inl ⟨rfl, h.session, rfl, h.alike⟩, fun _ heq => absurd heq hunit⟩

end Engine

/-- The packet was not taken. -/
def Exchange.Untaken (x : Exchange page σ) : Prop :=
  x.before.engine.Untaken x.arrival.packet x.answer

/-- The elements at the positions that are kept. -/
def picked (kept : Nat → Bool) : List α → List α
  | [] => []
  | x :: xs => if kept 0 then x :: picked (kept <| · + 1) xs else picked (kept <| · + 1) xs

namespace Snapshot

variable {s s' : Snapshot page σ} {a : Arrival}

/-- Session, chaining vector, latch and what flash holds are the same. -/
structure Agrees (view : NorFlash.View σ) (s s' : Snapshot page σ) : Prop where
  session : s'.engine.session = s.engine.session
  vector : s'.engine.assembly.vector = s.engine.assembly.vector
  halted : s'.engine.halted = s.engine.halted
  content : view.content s'.flash = view.content s.flash

/-- The snapshots differ in nothing but what their engines have read, and in whether a reset was asked
for. -/
def Leveled (chip : NorFlash σ) (view : NorFlash.View σ) (s s' : Snapshot page σ) : Prop :=
  Engine.InStep (Assembly.Leveled chip view) (s.engine, { flash := s.flash })
    (s'.engine, { flash := s'.flash })

theorem Leveled.agrees (h : Leveled chip view s s') : Agrees view s s' := by
  obtain ⟨content, hlevel⟩ := h.alike
  exact ⟨h.session, hlevel.vector, h.halted, hlevel.board.holds'.2.trans hlevel.board.holds.2.symm⟩

theorem leveled_refl (sound : view.Sound s.flash) : Leveled chip view s s :=
  ⟨rfl, rfl, _, rfl, ⟨⟨sound, rfl⟩, ⟨sound, rfl⟩, rfl⟩, Or.inl ⟨rfl, rfl⟩⟩

/-- The unit buffered can be read again, and is the same then but for what is pending in it. -/
structure Renewable (chip : NorFlash σ) (view : NorFlash.View σ) (s : Snapshot page σ) : Prop where
  consistent : s.engine.Consistent
  faithful : Engine.Faithful view (s.engine, { flash := s.flash })
  readable : Assembly.Readable chip view (s.engine.assembly, { flash := s.flash })

theorem renewable_fresh {flash : σ} (sound : view.Sound flash) :
    Renewable chip view (⟨{}, flash⟩ : Snapshot page σ) where
  consistent := Engine.consistent_fresh
  faithful := ⟨sound, fun u h => by simp at h⟩
  readable := ⟨sound, fun u h => by simp at h⟩

theorem exchange_renewable (steady : chip.Steady view) (hfits : page < UInt32.size)
    (hs : s.Renewable chip view) (a : Arrival) :
    (s.exchange config chip a).after.Renewable chip view where
  consistent := exchange_consistent hs.consistent
  faithful := exchange_faithful steady.toHonest hfits hs.faithful
  readable := exchange_of_yields
    (Q := fun _ e board => Assembly.Readable chip view (e.assembly, board))
    (Engine.receive_keeps_use (Assembly.keptByUse_readable steady) _ hs.readable)

/-- With nothing pending the buffered unit is what taking it up again would give. -/
theorem Renewable.spare (hs : s.Renewable chip view) (hnothing : s.engine.assembly.NothingPending) :
    s.engine.assembly.Spare chip view (view.content s.flash) := by
  refine ⟨hnothing, fun u hu => ⟨?_, hs.readable.2 u hu⟩⟩
  have hmirrors := (hs.faithful.2 u hu).2
  rw [hnothing.eq_none] at hmirrors
  exact hmirrors.toList_eq

/-- A packet taken by snapshots that are level looks alike, and they are level afterwards. -/
theorem exchange_leveled (steady : chip.Steady view) (hs : s.engine.Consistent)
    (h : Leveled chip view s s') (a : Arrival) :
    (s.exchange config chip a).LooksLike (s'.exchange config chip a) ∧
      Leveled chip view (s.exchange config chip a).after (s'.exchange config chip a).after := by
  have hcouples : (Engine.receive config chip a.now a.packet).Couples
      (Engine.receive config chip a.now a.packet) (s.engine, { flash := s.flash })
        (s'.engine, { flash := s'.flash }) (fun _ => Engine.InStep (Assembly.Leveled chip view))
        (fun _ => Engine.InStep (Assembly.Leveled chip view)) fun _ _ => False :=
    Engine.receive_leveled steady h hs
  obtain ⟨hanswer, hafter⟩ :=
    (exchange_couples (fun _ => Engine.InStep (Assembly.Leveled chip view)) hcouples).resolve_right id
  obtain ⟨content, hvector, ⟨hholds, hholds', heffects⟩, hbuffer⟩ := hafter.alike
  exact ⟨⟨hanswer, heffects, hafter.session, hafter.halted⟩, hafter.session, hafter.halted, content,
    hvector, ⟨hholds, hholds', rfl⟩, hbuffer⟩

/-- A snapshot that is level with another one is so still after a packet that is not taken. -/
theorem exchange_untaken (steady : chip.Steady view) (hpos : 0 < page)
    (hs : s.Renewable chip view) (h : Leveled chip view s s')
    (huntaken : (s.exchange config chip a).Untaken) :
    Leveled chip view (s.exchange config chip a).after s' := by
  rw [Exchange.Untaken, exchange_before, exchange_arrival] at huntaken
  have hunchanged : Engine.Unchanged view (s.engine, { flash := s.flash })
      ((s.exchange config chip a).after.engine, (s.exchange config chip a).board) :=
    exchange_of_yields (Q := fun answer e board => s.engine.Untaken a.packet answer →
      Engine.Unchanged view (s.engine, { flash := s.flash }) (e, board))
      (Engine.receive_untaken steady hpos hs.faithful.1 hs.consistent) huntaken
  obtain ⟨content, hvector, ⟨⟨hsound, rfl⟩, hholds', heffects⟩, hbuffer⟩ := h.alike
  refine ⟨h.session.trans hunchanged.session.symm, h.halted.trans hunchanged.halted.symm, _,
    hvector.trans hunchanged.vector.symm, ⟨hunchanged.holds, hholds', rfl⟩, ?_⟩
  have hpending := hunchanged.pending
  rcases hunchanged.buffer with hsame | ⟨hgone, hnothing⟩
  · rcases hbuffer with ⟨heq, hpending'⟩ | ⟨hspare, hspare'⟩
    · exact Or.inl ⟨heq.trans hsame.symm, hpending'.trans hpending.symm⟩
    · exact Or.inr ⟨⟨hpending.trans hspare.nothingPending,
        fun u hu => hspare.again u (hsame.symm.trans hu)⟩, hspare'⟩
  · -- The unit given up is one that the other engine, if it has it, could read again.
    have hspare := hs.spare hnothing
    refine Or.inr ⟨⟨hpending.trans hnothing, fun u hu => ?_⟩, ?_⟩
    · cases hgone.symm.trans hu
    · rcases hbuffer with ⟨heq, hpending'⟩ | ⟨-, hspare'⟩
      · exact ⟨hpending'.trans hnothing, fun u hu => hspare.again u (heq.symm.trans hu)⟩
      · exact hspare'

/-- Snapshots that are level stay so while the one takes packets that the other one is spared, none of
which is taken. -/
theorem exchanges_leveled (steady : chip.Steady view) (hpos : 0 < page) (hfits : page < UInt32.size)
    (hs : s.Renewable chip view) (h : Leveled chip view s s') {as : List Arrival} {kept : Nat → Bool}
    (huntaken : ∀ i x, (s.exchanges config chip as)[i]? = some x → kept i = false → x.Untaken) :
    List.Forall₂ Exchange.LooksLike (picked kept (s.exchanges config chip as))
        (s'.exchanges config chip (picked kept as)) ∧
      Leveled chip view (s.run config chip as) (s'.run config chip (picked kept as)) := by
  induction as generalizing s s' kept with
  | nil => exact ⟨List.Forall₂.nil, h⟩
  | cons a as ih =>
      have hafter : (s.exchange config chip a).after.Renewable chip view :=
        exchange_renewable steady hfits hs a
      have hrest : ∀ i x, ((s.exchange config chip a).after.exchanges config chip as)[i]? = some x →
          kept (i + 1) = false → x.Untaken := fun i x hx => huntaken (i + 1) x hx
      simp only [exchanges, picked, run]
      cases hkept : kept 0 with
      | true =>
          have hboth : (s.exchange config chip a).LooksLike (s'.exchange config chip a) ∧
              Leveled chip view (s.exchange config chip a).after (s'.exchange config chip a).after :=
            exchange_leveled steady hs.consistent h a
          obtain ⟨hlook, hrun⟩ := ih hafter hboth.2 hrest
          exact ⟨List.Forall₂.cons hboth.1 hlook, hrun⟩
      | false =>
          have hfirst : (s.exchange config chip a).Untaken := huntaken 0 _ rfl hkept
          exact ih hafter (exchange_untaken steady hpos hs h hfirst) hrest

/-- Packets that are not taken leave no trace: had an engine not received some of them, it would have
answered and done the same for all the others, and would stand where it stands. -/
theorem untaken_packets_leave_no_trace (config : Config) (chip : NorFlash σ) (view : NorFlash.View σ)
    (steady : chip.Steady view) (hpos : 0 < page) (hfits : page < UInt32.size) (flash : σ)
    (sound : view.Sound flash) (as : List Arrival) (kept : Nat → Bool)
    (huntaken : ∀ i x, ((⟨{}, flash⟩ : Snapshot page σ).exchanges config chip as)[i]? = some x →
      kept i = false → x.Untaken) :
    List.Forall₂ Exchange.LooksLike
        (picked kept ((⟨{}, flash⟩ : Snapshot page σ).exchanges config chip as))
        ((⟨{}, flash⟩ : Snapshot page σ).exchanges config chip (picked kept as)) ∧
      Agrees view ((⟨{}, flash⟩ : Snapshot page σ).run config chip as)
        ((⟨{}, flash⟩ : Snapshot page σ).run config chip (picked kept as)) := by
  obtain ⟨hlooks, hlevel⟩ := exchanges_leveled steady hpos hfits (renewable_fresh sound)
    (leveled_refl sound) huntaken
  exact ⟨hlooks, hlevel.agrees⟩

end Snapshot

end FirmwareUpdate

namespace FirmwareUpdate

namespace SmallDevice

theorem flash_faultless : (FlashMemory.faultlessView 0 128).Sound flash := by
  refine ⟨?_, ?_, ?_⟩ <;> decide +kernel

def ping : Arrival := command { command := .ping }

/-- A vector is announced, though a transfer is going on. -/
def announce : Arrival := command { command := .vector, length := 16 }

/-- The second half of a block of zeros, which comes too early. -/
def ahead : Arrival := data (PayloadPacket.encode { address := 56, payload := List.replicate 8 0 })

/-- The transfer of a block, with packets in between that come to nothing. -/
def disturbed : List Arrival :=
  [ping, transfer, announce, ahead,
    data (PayloadPacket.encode { address := 48, payload := List.replicate 16 0 })]

/-- The positions of the packets that the transfer needs. -/
def needed (i : Nat) : Bool := i = 1 ∨ i = 4

theorem ping_untaken : (next [] ping).Untaken := by
  have hanswer : (next [] ping).answer = .ok () := by decide +kernel
  rw [Exchange.Untaken, hanswer, next, Snapshot.exchange_before, Snapshot.exchange_arrival]
  exact .asked rfl (Or.inl rfl)

theorem announce_untaken : (next [ping, transfer] announce).Untaken := by
  have hanswer : (next [ping, transfer] announce).answer = .error .busy := by decide +kernel
  rw [Exchange.Untaken, hanswer, next, Snapshot.exchange_before, Snapshot.exchange_arrival]
  exact .refused rfl

theorem ahead_untaken : (next [ping, transfer, announce] ahead).Untaken := by
  have hanswer : (next [ping, transfer, announce] ahead).answer = .ok () := by decide +kernel
  have hactivity : (run [ping, transfer, announce]).engine.session.activity = .transfer 48 16 := by
    decide +kernel
  have hplaced : (run [ping, transfer, announce]).engine.placement 56 ≠ .wanted := by decide +kernel
  rw [Exchange.Untaken, hanswer, next, Snapshot.exchange_before, Snapshot.exchange_arrival]
  exact .passedOver hactivity rfl hplaced

theorem disturbed_untaken :
    ∀ i x, (start.exchanges config chip disturbed)[i]? = some x → needed i = false → x.Untaken := by
  intro i x hx hneeded
  rcases i with _ | _ | _ | _ | _ | i
  · obtain rfl : next [] ping = x := Option.some.inj hx
    exact ping_untaken
  · cases hneeded
  · obtain rfl : next [ping, transfer] announce = x := Option.some.inj hx
    exact announce_untaken
  · obtain rfl : next [ping, transfer, announce] ahead = x := Option.some.inj hx
    exact ahead_untaken
  · cases hneeded
  · simp [disturbed] at hx

end SmallDevice

open SmallDevice in
theorem untaken_packets_leave_no_trace_disturbed :
    SmallDevice.chip.Steady (FlashMemory.faultlessView 0 128) ∧
      (FlashMemory.faultlessView 0 128).Sound flash ∧
      (∀ i x, (start.exchanges SmallDevice.config SmallDevice.chip disturbed)[i]? = some x →
        needed i = false → x.Untaken) ∧
      List.Forall₂ Exchange.LooksLike
        (picked needed (start.exchanges SmallDevice.config SmallDevice.chip disturbed))
        (start.exchanges SmallDevice.config SmallDevice.chip oneBlock) ∧
      (start.run SmallDevice.config SmallDevice.chip disturbed).Agrees (FlashMemory.faultlessView 0 128)
        (start.run SmallDevice.config SmallDevice.chip oneBlock) :=
  ⟨FlashMemory.chip_steady 0 128 16, flash_faultless, disturbed_untaken,
    Snapshot.untaken_packets_leave_no_trace SmallDevice.config SmallDevice.chip
      (FlashMemory.faultlessView 0 128) (FlashMemory.chip_steady 0 128 16) (by decide) (by decide)
      flash flash_faultless disturbed needed disturbed_untaken⟩

open SmallDevice in
/-- On a chip with larger units the first packet halts the engine, and the second one meets it halted. -/
theorem first_ping_leaves_trace :
    (FlashMemory.chip 4096).Steady (FlashMemory.faultlessView 0 128) ∧
      (FlashMemory.faultlessView 0 128).Sound flash ∧
      (∀ i x, (start.exchanges SmallDevice.config (FlashMemory.chip 4096) [ping, ping])[i]? = some x →
        (i == 1) = false → x.Asks .ping) ∧
      ¬List.Forall₂ Exchange.LooksLike
        (picked (· == 1) (start.exchanges SmallDevice.config (FlashMemory.chip 4096) [ping, ping]))
        (start.exchanges SmallDevice.config (FlashMemory.chip 4096) (picked (· == 1) [ping, ping])) := by
  refine ⟨FlashMemory.chip_steady 0 128 4096, flash_faultless, fun i x hx _ => ?_, fun h => ?_⟩
  · have hmem := List.mem_of_getElem? hx
    simp only [Snapshot.exchanges, List.mem_cons, List.not_mem_nil, or_false] at hmem
    rcases hmem with rfl | rfl
    all_goals
      rw [Exchange.Asks, Snapshot.exchange_arrival]
      exact ⟨{ command := .ping }, rfl, rfl⟩
  · have hanswer := (List.forall₂_cons.mp h).1.answer
    revert hanswer
    decide +kernel

end FirmwareUpdate
