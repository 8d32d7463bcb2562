import FirmwareUpdate.Proofs.Engine.Marks
import FirmwareUpdate.Proofs.Engine.Reports
import FirmwareUpdate.Proofs.Wire

/-!
# What reports count

The bytes in a report are those of the payload that was taken in the session since the last transfer was
accepted, payload that goes back over buffered bytes included. They are counted in 32 bits, and so is the
rate, whatever the time: figures are exact as long as count and rate fit, and are cut otherwise. Nothing
bounds how often payload is sent again.
-/

namespace FirmwareUpdate

variable {page : Nat} {σ : Type} {config : Config} {chip : NorFlash σ}

/-! ### The rate -/

namespace Throughput

/-- The figures tell all bytes counted, and the rate that these come to. -/
structure Exact (total : Nat) (t : Throughput) : Prop where
  bytes : t.bytes.toNat = total
  rate : t.elapsedMs ≠ 0 → t.bytesPerSecond.toNat = t.bytes.toNat * 1000 / t.elapsedMs.toNat

theorem toNat_bytesPerSecond (t : Throughput) (h : t.elapsedMs ≠ 0) :
    t.bytesPerSecond.toNat = t.bytes.toNat * 1000 / t.elapsedMs.toNat % UInt32.size := by
  have hbytes := t.bytes.toNat_lt
  have hproduct : (t.bytes.toUInt64 * 1000).toNat = t.bytes.toNat * 1000 := by
    rw [UInt64.toNat_mul, UInt32.toNat_toUInt64]
    exact Nat.mod_eq_of_lt (by simp only [UInt64.reduceToNat]; omega)
  rw [bytesPerSecond, if_neg h, UInt64.toNat_toUInt32, UInt64.toNat_div, hproduct]

/-- The rate is exact if and only if it fits in 32 bits. -/
theorem toNat_bytesPerSecond_eq_iff (t : Throughput) (h : t.elapsedMs ≠ 0) :
    t.bytesPerSecond.toNat = t.bytes.toNat * 1000 / t.elapsedMs.toNat ↔
      t.bytes.toNat * 1000 < UInt32.size * t.elapsedMs.toNat := by
  have hpos : 0 < t.elapsedMs.toNat :=
    Nat.pos_of_ne_zero fun hzero => h (UInt64.toNat_inj.mp hzero)
  rw [t.toNat_bytesPerSecond h, Nat.mod_eq_iff_lt (by decide), Nat.div_lt_iff_lt_mul hpos]

end Throughput

/-! ### What is counted -/

namespace Engine

open Attempt

variable {now : UInt64} {e : Engine page} {board : Board σ}

/-- Payload that is wanted, and ends within the transfer. -/
def Takes (limit : UInt32) (e : Engine page) (p : PayloadPacket) : Prop :=
  e.placement p.address = .wanted ∧
    (stopWithin? limit p.address (UInt32.ofNat p.payload.length)).isSome

instance (limit : UInt32) (e : Engine page) (p : PayloadPacket) : Decidable (e.Takes limit p) :=
  inferInstanceAs (Decidable (_ ∧ _))

/-- How many payload bytes of a data packet are taken. -/
def bytesTaken (config : Config) (e : Engine page) (bytes : Bytes) : Nat :=
  match e.session.activity, PayloadPacket.decode bytes with
  | .transfer base length, .ok p =>
    if bytes.length ≤ config.maxPacket ∧ e.Takes (base + length) p then p.payload.length else 0
  | _, _ => 0

/-- The session has a count, and whatever was reported tells it. -/
def Counts (count : UInt32) (st : Engine page × Board σ) : Prop :=
  st.1.session.bytesRead = count ∧ ∀ figures ∈ Event.reports st.2.events, figures.bytes = count

theorem counts_of_silent {st : Engine page × Board σ} (h : Event.reports st.2.events = []) :
    Counts st.1.session.bytesRead st :=
  ⟨rfl, by simp [h]⟩

/-- The count once a command was accepted. -/
def recount {α : Type} [OfNat α 0] (count : α) : Command → α
  | .restart | .data => 0
  | _ => count

theorem recount_ofNat (total : Nat) (command : Command) :
    recount (UInt32.ofNat total) command = UInt32.ofNat (recount total command) := by
  cases command <;> rfl

theorem execute_counts (hsilent : Event.reports board.events = []) {packet : ControlPacket} :
    (execute config chip now packet).Yields (e, board)
      (fun _ st => Counts (recount e.session.bytesRead packet.command) st)
      fun _ st => Counts e.session.bytesRead st := by
  apply yields_execute (fun _ _ => counts_of_silent hsilent)
  cases packet.command with
  | restart => exact ⟨rfl, by simp [hsilent, Event.figures?]⟩
  | data =>
      intro _ _ _ _
      exact (Assembly.seek_keeps_reports [] _ (e.assembly, board) hsilent).mono
        (fun _ _ hst => ⟨rfl, by simp [hst]⟩) fun _ _ hst => ⟨rfl, by simp [hst]⟩
  | vector => exact fun _ => counts_of_silent hsilent
  | digest => exact fun _ => counts_of_silent hsilent
  | done =>
      intro _ _
      have hkept : (Confirmation.run chip config.appBase).Keeps
          fun board => Event.reports board.events = [] :=
        confirmation_keeps (fun _ _ => Board.call_keeps_reports _ _ _) _
          (Board.call_keeps_reports _ _ _)
      exact (hkept board hsilent).mono (fun _ _ hst => ⟨rfl, by simp [hst]⟩)
        fun _ _ hst => ⟨rfl, by simp [hst]⟩
  | reset => exact counts_of_silent hsilent
  | ping => exact ⟨rfl, by simp [hsilent, Event.figures?, Session.throughput, recount]⟩

theorem copy_keeps_reports (figures : List Throughput) (bytes : Bytes) :
    (copy config chip bytes).Keeps
      fun st : Engine page × Board σ => Event.reports st.2.events = figures := by
  let P : Board σ → Prop := fun board => Event.reports board.events = figures
  have hseek (address : UInt32) :
      (Assembly.seek config.key chip address : Attempt (Assembly page × Board σ) Unit).Keeps
        fun st => P st.2 := Assembly.seek_keeps_reports figures address
  exact copy_keeps (fun address => assemble_keeps (P := P) (hseek address))
    (fun _ _ => assemble_keeps (P := P) (Assembly.insert_keeps (P := P))) (fun _ _ _ hst => hst) bytes

/-- Copying payload neither counts nor reports. -/
theorem copy_counts (hsilent : Event.reports board.events = []) {bytes : Bytes} :
    (copy config chip bytes).Yields (e, board)
      (fun _ st => st.1.session.bytesRead = e.session.bytesRead ∧ Event.reports st.2.events = [])
      fun _ st => st.1.session.bytesRead = e.session.bytesRead ∧ Event.reports st.2.events = [] :=
  (copy_session.and (copy_keeps_reports [] bytes (e, board) hsilent)).mono
    (fun _ _ hst => ⟨(congrArg Session.bytesRead hst.1 :), hst.2⟩)
    fun _ _ hst => ⟨(congrArg Session.bytesRead hst.1 :), hst.2⟩

/-- Payload that is wanted is counted if it ends within the transfer. -/
theorem takePayload_counts (hsilent : Event.reports board.events = []) {limit : UInt32}
    {p : PayloadPacket} (hplacement : e.placement p.address = .wanted) :
    (takePayload config chip now limit p).Yields (e, board)
      (fun _ st => Counts (e.session.bytesRead +
        UInt32.ofNat (if e.Takes limit p then p.payload.length else 0)) st)
      fun _ st => Counts (e.session.bytesRead +
        UInt32.ofNat (if e.Takes limit p then p.payload.length else 0)) st := by
  refine yields_takePayload (fun hover => ?_) fun stop hstop => ?_
  · rw [if_neg fun htakes : e.Takes limit p => by simp [Takes, hover] at htakes]
    exact ⟨by simp, by simp [hsilent]⟩
  · rw [if_pos ⟨hplacement, by simp [hstop]⟩]
    refine (copy_counts hsilent).mono (fun _ st hst => ?_) fun _ st hst => ⟨hst.1, by simp [hst.2]⟩
    obtain ⟨e', board'⟩ := st
    obtain ⟨hcount, hreports⟩ := hst
    refine ⟨fun _ => yields_complete.mpr ?_, fun _ => ⟨hcount, by simp [hreports]⟩⟩
    refine (Assembly.commit_keeps_reports [] (e'.assembly, board') hreports).mono
      (fun _ st hst => ⟨hcount, ?_⟩) fun _ st hst => ⟨hcount, by simp [hst]⟩
    simpa [hst, Event.figures?, Session.throughput] using hcount

/-- Payload for the buffered unit that ends short of the transfer is laid into the unit, and no flash is
needed. -/
theorem takePayload_within (hpos : 0 < page) {u : UnitBuffer page} {limit stop : UInt32}
    {p : PayloadPacket} (hpayload : p.payload ≠ [])
    (hstop : stopWithin? limit p.address (UInt32.ofNat p.payload.length) = some stop)
    (hshort : stop ≠ limit) (hbuffer : e.assembly.buffer = some u)
    (hbase : u.base = Address.unitBase page p.address)
    (hroom : u.room p.address p.payload.length = p.payload.length) :
    (takePayload config chip now limit p).Yields (e, board)
      (fun _ st => st = (e.moved (e.assembly.lay u p.address p.payload)
        (p.address + UInt32.ofNat p.payload.length) p.payload.length, board))
      fun _ _ => False := by
  refine yields_takePayload (fun hover => by simp [hover] at hstop) fun stop' hstop' => ?_
  obtain rfl : stop = stop' := Option.some.inj (hstop.symm.trans hstop')
  obtain ⟨address, payload⟩ := p
  cases payload with
  | nil => exact absurd rfl hpayload
  | cons b bs =>
      rw [yields_copy_cons, Assembly.yields_seek]
      refine ⟨fun _ => ?_, fun hleft => absurd ?_ hleft⟩
      · rw [Assembly.yields_insert_of_contains hbuffer (UnitBuffer.contains_of_base hpos hbase), hroom]
        have hrest : bs.drop ((b :: bs).length - 1) = [] := by simp
        rw [hrest, copy_nil]
        exact ⟨fun hlast => absurd hlast hshort, fun _ => rfl⟩
      · simp [Assembly.base?, hbuffer, hbase]

/-- Data is counted as far as it is payload that is taken, also if flash then fails. -/
theorem consume_counts (hsilent : Event.reports board.events = []) {bytes : Bytes} :
    (consume config chip now bytes).Yields (e, board)
      (fun _ st => Counts (e.session.bytesRead + UInt32.ofNat (e.bytesTaken config bytes)) st)
      fun _ st => Counts (e.session.bytesRead + UInt32.ofNat (e.bytesTaken config bytes)) st := by
  have hnone {st : Engine page × Board σ} (hcount : st.1.session.bytesRead = e.session.bytesRead)
      (hreports : Event.reports st.2.events = []) (hnothing : e.bytesTaken config bytes = 0) :
      Counts (e.session.bytesRead + UInt32.ofNat (e.bytesTaken config bytes)) st :=
    ⟨by simp [hnothing, hcount], by simp [hreports]⟩
  refine yields_consume.mpr ⟨fun hlong => hnone rfl hsilent ?_, fun hfits => ?_⟩
  · unfold bytesTaken
    split
    · exact if_neg fun h => absurd h.1 (by omega)
    · rfl
  split
  · next hactivity => exact hnone rfl hsilent (by simp [bytesTaken, hactivity])
  · next hactivity =>
      have hnothing : e.bytesTaken config bytes = 0 := by simp [bytesTaken, hactivity]
      exact yields_receiveVector (fun _ => hnone rfl hsilent hnothing)
        fun _ _ => hnone rfl hsilent hnothing
  · next hactivity =>
      have hnothing : e.bytesTaken config bytes = 0 := by simp [bytesTaken, hactivity]
      refine yields_receiveDigest (fun _ => hnone rfl hsilent hnothing)
        fun _ _ => yields_checkDigest.mpr ?_
      refine Yields.mono (digest_keeps (fun _ _ => Board.call_keeps_reports _ _ []) _ _ board hsilent)
        (fun _ board' hst => ⟨fun _ => hnone rfl hst hnothing, fun _ => hnone rfl ?_ hnothing⟩)
        fun _ _ hst => hnone rfl hst hnothing
      simpa [Event.figures?] using hst
  · next base length hactivity =>
      refine yields_receivePayload (fun error herror => hnone rfl hsilent ?_) fun p hdecode => ?_
      · simp [bytesTaken, hactivity, herror]
      have htaken : e.bytesTaken config bytes =
          if e.Takes (base + length) p then p.payload.length else 0 := by
        simp [bytesTaken, hactivity, hdecode, Nat.le_of_not_lt hfits]
      split
      · next hplacement =>
          refine hnone rfl (by simp [hsilent, Event.figures?]) ?_
          rw [htaken, if_neg fun htakes => by simp [htakes.1] at hplacement]
      · next hplacement =>
          refine hnone rfl hsilent ?_
          rw [htaken, if_neg fun htakes => by simp [htakes.1] at hplacement]
      · next hplacement =>
          rw [htaken]
          exact takePayload_counts hsilent hplacement

end Engine

namespace Exchange

variable {x : Exchange page σ}

/-- How many payload bytes of the packet were taken. A halted engine takes none, nor does one that does not
fit its chip. -/
def bytesTaken (config : Config) (chip : NorFlash σ) (x : Exchange page σ) : Nat :=
  match x.arrival.packet with
  | .control _ => 0
  | .data bytes =>
    if x.before.engine.halted = false ∧ chip.eraseSize = page then
      x.before.engine.bytesTaken config bytes
    else 0

/-- The bytes taken since a transfer or a session began, after one more packet. -/
def tally (config : Config) (chip : NorFlash σ) (total : Nat) (x : Exchange page σ) : Nat :=
  if x.mark = some .transfer ∨ x.mark = some .restart then 0 else total + x.bytesTaken config chip

/-- The bytes taken since the last transfer or session began. -/
def tallied (config : Config) (chip : NorFlash σ) (history : List (Exchange page σ)) : Nat :=
  history.foldl (tally config chip) 0

theorem tallied_concat (history : List (Exchange page σ)) (x : Exchange page σ) :
    tallied config chip (history ++ [x]) = x.tally config chip (tallied config chip history) := by
  rw [tallied, List.foldl_append]
  rfl

/-- Only an accepted command begins a transfer or a session. -/
theorem tally_of_not_begun (h : (∃ bytes, x.arrival.packet = .data bytes) ∨ ∃ err, x.answer = .error err)
    (total : Nat) : x.tally config chip total = total + x.bytesTaken config chip := by
  refine if_neg ?_
  rw [mark, Packet.mark.eq_def]
  split
  · next hanswer =>
      rcases h with ⟨bytes, hdata⟩ | ⟨err, herror⟩
      · simp [*] at hdata
      · simp [*] at herror
  all_goals simp

theorem bytesTaken_of_command {p : ControlPacket} (hcommand : x.arrival.packet.command? = some p) :
    x.bytesTaken config chip = 0 := by
  unfold bytesTaken
  split
  · rfl
  · next bytes hpacket => simp [hpacket, Packet.command?] at hcommand

/-- A command that was accepted counts nothing, and begins to count anew if it begins a transfer or a
session. -/
theorem tally_of_command {p : ControlPacket} (haccepted : x.answer = .ok ())
    (hcommand : x.arrival.packet.command? = some p) (total : Nat) :
    x.tally config chip total = Engine.recount total p.command := by
  have hmark : x.mark = p.command.mark := by
    cases hpacket : x.arrival.packet with
    | data bytes => simp [hpacket, Packet.command?] at hcommand
    | control bytes =>
        rw [hpacket] at hcommand
        simp [mark, Packet.mark, hpacket, haccepted, hcommand]
  rw [tally, hmark, bytesTaken_of_command hcommand]
  cases p.command <;> simp [Command.mark, Engine.recount]

end Exchange

namespace Snapshot

variable {s : Snapshot page σ} {a : Arrival} {total : Nat}

variable (config chip) in
/-- The session counts the bytes taken in 32 bits, and whatever is reported about a packet tells this
count. -/
theorem exchange_counts (h : s.engine.session.bytesRead = UInt32.ofNat total) :
    let x := s.exchange config chip a
    Engine.Counts (UInt32.ofNat (x.tally config chip total))
      (x.after.engine, ({ flash := x.after.flash, events := x.events } : Board σ)) := by
  refine exchange_holds (R := fun x => Engine.Counts (UInt32.ofNat (x.tally config chip total))
    (x.after.engine, ({ flash := x.after.flash, events := x.events } : Board σ))) ?_
  obtain ⟨now, packet⟩ := a
  -- An engine that is halted, or does not fit its chip, answers without looking at the packet.
  have hunread {err : UpdateError} {engine : Engine page}
      (hcount : engine.session.bytesRead = s.engine.session.bytesRead)
      (hclosed : ¬(s.engine.halted = false ∧ chip.eraseSize = page)) :
      Engine.Counts (UInt32.ofNat (Exchange.tally config chip total
          ⟨⟨now, packet⟩, s, .error err, #[], ⟨engine, s.flash⟩⟩))
        (engine, ({ flash := s.flash } : Board σ)) := by
    have hnone : Exchange.bytesTaken config chip
        ⟨⟨now, packet⟩, s, .error err, #[], ⟨engine, s.flash⟩⟩ = 0 := by
      cases packet with
      | control bytes => rfl
      | data bytes => exact if_neg hclosed
    rw [Exchange.tally_of_not_begun (Or.inr ⟨err, rfl⟩), hnone]
    exact ⟨hcount.trans h, by simp⟩
  refine Engine.yields_receive.mpr ⟨fun hhalted => hunread rfl fun hopen => ?_,
    fun _ hother => hunread rfl fun hopen => hother hopen.2, fun hrunning hunit => ?_⟩
  · simp [hopen.1] at hhalted
  cases packet with
  | control bytes =>
      have hrefused {err : UpdateError} {st : Engine page × Board σ}
          (hst : Engine.Counts s.engine.session.bytesRead st) :
          Engine.Counts (UInt32.ofNat (Exchange.tally config chip total
              ⟨⟨now, .control bytes⟩, s, .error err, st.2.events, ⟨st.1.haltedBy err, st.2.flash⟩⟩))
            (st.1.haltedBy err, st.2) := by
        rw [Exchange.tally_of_not_begun (Or.inr ⟨err, rfl⟩)]
        rw [h] at hst
        exact hst
      have hkept : Engine.Counts s.engine.session.bytesRead (s.engine, ({ flash := s.flash } : Board σ)) :=
        Engine.counts_of_silent rfl
      refine Engine.yields_handle_control (fun _ _ => hrefused hkept) fun p hdecode => ?_
      have hcommand : (Packet.control bytes).command? = some p := by
        simp [Packet.command?, hdecode, Except.toOption]
      refine (Engine.execute_counts rfl).mono (fun _ st hst => ?_) fun _ _ hst => hrefused hst
      rw [Exchange.tally_of_command rfl hcommand, ← Engine.recount_ofNat, ← h]
      exact hst
  | data bytes =>
      have htaken {answer : Except UpdateError Unit} {st : Engine page × Board σ} {engine : Engine page}
          (hsession : engine.session = st.1.session)
          (hst : Engine.Counts (s.engine.session.bytesRead +
            UInt32.ofNat (s.engine.bytesTaken config bytes)) st) :
          Engine.Counts (UInt32.ofNat (Exchange.tally config chip total
              ⟨⟨now, .data bytes⟩, s, answer, st.2.events, ⟨engine, st.2.flash⟩⟩))
            (engine, st.2) := by
        have hopen : s.engine.halted = false ∧ chip.eraseSize = page :=
          ⟨Bool.eq_false_iff.mpr hrunning, hunit⟩
        have hcount : Exchange.bytesTaken config chip
            ⟨⟨now, .data bytes⟩, s, answer, st.2.events, ⟨engine, st.2.flash⟩⟩ =
              s.engine.bytesTaken config bytes := if_pos hopen
        rw [Exchange.tally_of_not_begun (Or.inl ⟨bytes, rfl⟩), hcount, UInt32.ofNat_add, ← h]
        exact ⟨(congrArg Session.bytesRead hsession).trans hst.1, hst.2⟩
      exact (Engine.consume_counts rfl).mono (fun _ _ hst => htaken rfl hst)
        fun _ _ hst => htaken rfl hst

/-- After any packets the session counts the bytes taken since the last transfer or session began. -/
theorem run_counts (flash : σ) (past : List Arrival) :
    let start : Snapshot page σ := ⟨{}, flash⟩
    (start.run config chip past).engine.session.bytesRead =
      UInt32.ofNat (Exchange.tallied config chip (start.exchanges config chip past)) := by
  intro start
  induction past using List.reverseRecOn with
  | nil => rfl
  | append_singleton past a ih =>
      rw [run_concat, exchanges_concat, Exchange.tallied_concat]
      exact (exchange_counts config chip ih).1

/-- The figures reported tell the payload taken since the last transfer or session began, and the rate it
comes to, each cut to 32 bits. They are exact if and only if both fit. -/
theorem figures_exact_iff_fitting (config : Config) (chip : NorFlash σ) (flash : σ)
    (past : List Arrival) (a : Arrival) :
    let start : Snapshot page σ := ⟨{}, flash⟩
    let total := Exchange.tallied config chip (start.exchanges config chip (past ++ [a]))
    ∀ figures ∈ ((start.run config chip past).exchange config chip a).reports,
      figures.bytes.toNat = total % UInt32.size ∧
      (figures.elapsedMs ≠ 0 → figures.bytesPerSecond.toNat =
        figures.bytes.toNat * 1000 / figures.elapsedMs.toNat % UInt32.size) ∧
      (figures.Exact total ↔ total < UInt32.size ∧
        (figures.elapsedMs ≠ 0 → total * 1000 < UInt32.size * figures.elapsedMs.toNat)) := by
  intro start total figures hmem
  have hbytes : figures.bytes = UInt32.ofNat total := by
    have hcount : (start.run config chip past).engine.session.bytesRead =
        UInt32.ofNat (Exchange.tallied config chip (start.exchanges config chip past)) :=
      run_counts flash past
    have hcounts := (exchange_counts config chip (a := a) hcount).2 figures hmem
    rw [← Exchange.tallied_concat, ← exchanges_concat] at hcounts
    exact hcounts
  have hmod : figures.bytes.toNat = total % UInt32.size := by
    rw [hbytes]
    exact UInt32.toNat_ofNat'
  refine ⟨hmod, figures.toNat_bytesPerSecond, fun hexact => ?_, fun ⟨hfits, hrate⟩ => ?_⟩
  · obtain ⟨htotal, hrate⟩ := hexact
    refine ⟨htotal ▸ figures.bytes.toNat_lt, fun helapsed => ?_⟩
    rw [← htotal]
    exact (figures.toNat_bytesPerSecond_eq_iff helapsed).mp (hrate helapsed)
  · have htotal : figures.bytes.toNat = total := hmod.trans (Nat.mod_eq_of_lt hfits)
    refine ⟨htotal, fun helapsed => (figures.toNat_bytesPerSecond_eq_iff helapsed).mpr ?_⟩
    rw [htotal]
    exact hrate helapsed

/-! ### Payload that is sent again -/

/-- The payload is what was taken last: the buffered unit has it right before the cursor, and the transfer
goes on after it. -/
structure Holds (config : Config) (chip : NorFlash σ) (base length : UInt32) (p : PayloadPacket)
    (u : UnitBuffer page) (s : Snapshot page σ) : Prop where
  running : s.engine.halted = false
  eraseSize : chip.eraseSize = page
  size : p.encode.length ≤ config.maxPacket
  payload : p.payload ≠ []
  activity : s.engine.session.activity = .transfer base length
  wanted : s.engine.placement p.address = .wanted
  cursor : Engine.stopWithin? (base + length) p.address (UInt32.ofNat p.payload.length) =
    some s.engine.session.cursor
  unfinished : s.engine.session.cursor ≠ base + length
  buffered : s.engine.assembly.buffer = some u
  unit : u.base = Address.unitBase page p.address
  room : u.room p.address p.payload.length = p.payload.length
  held : s.engine.assembly.lay u p.address p.payload = s.engine.assembly

/-- The same with another count. -/
def counted (s : Snapshot page σ) (count : UInt32) : Snapshot page σ :=
  { s with engine := { s.engine with session := { s.engine.session with bytesRead := count } } }

variable {base length : UInt32} {p : PayloadPacket} {u : UnitBuffer page}

@[simp] theorem counted_self : s.counted s.engine.session.bytesRead = s := rfl

@[simp] theorem counted_counted (count count' : UInt32) :
    (s.counted count).counted count' = s.counted count' := rfl

@[simp] theorem bytesRead_counted (count : UInt32) :
    (s.counted count).engine.session.bytesRead = count := rfl

theorem throughput_counted (count : UInt32) (now : UInt64) (expected : UInt32) :
    (s.counted count).engine.session.throughput now expected =
      { s.engine.session.throughput now expected with bytes := count } := rfl

theorem Holds.recount (h : s.Holds config chip base length p u) (count : UInt32) :
    (s.counted count).Holds config chip base length p u :=
  { h with }

/-- Payload that was taken last is taken again, and nothing changes but the count. -/
theorem Holds.exchange_eq (hpos : 0 < page) (h : s.Holds config chip base length p u)
    (harrival : a.packet = .data p.encode) :
    s.exchange config chip a = ⟨a, s, .ok (), #[],
      s.counted (s.engine.session.bytesRead + UInt32.ofNat p.payload.length)⟩ := by
  obtain ⟨now, packet⟩ := a
  obtain rfl : packet = .data p.encode := harrival
  have hstop : p.address + UInt32.ofNat p.payload.length = s.engine.session.cursor := by
    have hcursor := (Engine.stopWithin?_eq_some h.cursor).1
    exact UInt32.toNat_inj.mp
      ((Address.toNat_add_of_lt (hcursor ▸ UInt32.toNat_lt _)).trans hcursor)
  have hdecode := PayloadPacket.decode_encode h.payload
  refine exchange_holds (R := fun x => x = _) (Engine.yields_receive.mpr
    ⟨fun hhalted => ?_, fun _ hother => absurd h.eraseSize hother, fun _ _ => ?_⟩)
  · simp [h.running] at hhalted
  refine Engine.yields_consume.mpr ⟨fun hlong => absurd h.size (Nat.not_le.mpr hlong), fun _ => ?_⟩
  simp only [h.activity]
  refine Engine.yields_receivePayload (fun error herror => ?_) fun q hq => ?_
  · simp [hdecode] at herror
  obtain rfl : p = q := Except.ok.inj (hdecode.symm.trans hq)
  simp only [h.wanted]
  refine (Engine.takePayload_within hpos h.payload h.cursor h.unfinished h.buffered h.unit
    h.room).mono (fun _ st hst => ?_) fun _ _ hfalse => hfalse.elim
  rw [hst, h.held, hstop]
  rfl

/-- Payload that was taken last can be sent any number of times: every time it is taken and counted. -/
theorem Holds.run_eq (hpos : 0 < page) (h : s.Holds config chip base length p u) {past : List Arrival}
    (hpast : ∀ b ∈ past, b.packet = .data p.encode) :
    s.run config chip past = s.counted
      (s.engine.session.bytesRead + UInt32.ofNat (past.length * p.payload.length)) := by
  induction past generalizing s with
  | nil => simp [run]
  | cons b past ih =>
      rw [List.forall_mem_cons] at hpast
      rw [run, h.exchange_eq hpos hpast.1, ih (h.recount _) hpast.2]
      simp only [counted_counted, bytesRead_counted, List.length_cons, Nat.succ_mul, UInt32.ofNat_add]
      rw [UInt32.add_assoc, UInt32.add_comm (UInt32.ofNat p.payload.length)]

theorem Holds.tally_eq (hpos : 0 < page) (h : s.Holds config chip base length p u)
    {past : List Arrival} (hpast : ∀ b ∈ past, b.packet = .data p.encode) (total : Nat) :
    (s.exchanges config chip past).foldl (Exchange.tally config chip) total =
      total + past.length * p.payload.length := by
  induction past generalizing s total with
  | nil => simp [exchanges]
  | cons b past ih =>
      rw [List.forall_mem_cons] at hpast
      have htaken : (s.exchange config chip b).bytesTaken config chip = p.payload.length := by
        rw [Exchange.bytesTaken, exchange_arrival, hpast.1, exchange_before]
        simp only [Engine.bytesTaken]
        rw [if_pos ⟨h.running, h.eraseSize⟩, h.activity, PayloadPacket.decode_encode h.payload]
        exact if_pos ⟨h.size, h.wanted, by simp [h.cursor]⟩
      have hafter := congrArg Exchange.after (h.exchange_eq hpos hpast.1)
      have hdata : ∃ bytes, (s.exchange config chip b).arrival.packet = .data bytes :=
        ⟨p.encode, by rw [exchange_arrival, hpast.1]⟩
      rw [exchanges, List.foldl_cons, Exchange.tally_of_not_begun (Or.inl hdata), htaken, hafter,
        ih (h.recount _) hpast.2 _, List.length_cons, Nat.succ_mul]
      omega

/-- A ping to an engine that runs is accepted, and reports what stands. -/
theorem exchange_ping (hrunning : s.engine.halted = false) (hunit : chip.eraseSize = page)
    {ping : ControlPacket} (hping : ping.command = .ping)
    (harrival : a.packet = .control ping.encode) :
    let x := s.exchange config chip a
    x.answer = .ok () ∧ x.reports = [s.engine.session.throughput a.now ping.length.toUInt32] := by
  obtain ⟨now, packet⟩ := a
  obtain rfl : packet = .control ping.encode := harrival
  refine exchange_holds (R := fun x => x.answer = .ok () ∧ x.reports = _) (Engine.yields_receive.mpr
    ⟨fun hhalted => ?_, fun _ hother => absurd hunit hother, fun _ _ => ?_⟩)
  · simp [hrunning] at hhalted
  refine Engine.yields_handle_control (fun error herror => ?_) fun q hq => ?_
  · simp [ControlPacket.decode_encode] at herror
  obtain rfl : ping = q := Except.ok.inj ((ControlPacket.decode_encode ping).symm.trans hq)
  rw [Engine.execute, hping, Engine.yields_report]
  exact ⟨rfl, rfl⟩

end Snapshot

end FirmwareUpdate

/-! ### A block that is sent again and again -/

namespace FirmwareUpdate

namespace SmallDevice

/-- All but the last byte of a block. -/
def shortPayload : PayloadPacket := { address := 48, payload := List.replicate 15 0 }

def shortPiece : Arrival := data shortPayload.encode

/-- The transfer of a block, whose first fifteen bytes are sent a number of times. -/
def resending (count : Nat) : List Arrival := transfer :: shortPiece :: List.replicate count shortPiece

/-- A ping a millisecond after the transfer was accepted. -/
def lateInquiry : Arrival := { command { command := .ping } with now := 1 }

/-- The unit at 48 with the bytes in it. -/
def shortUnit : UnitBuffer 16 where
  base := 48
  bytes := (Vector.replicate 15 0).push 0xff

theorem holds_shortPayload : (run (resending 0)).Holds config chip 48 16 shortPayload shortUnit where
  running := by decide +kernel
  eraseSize := rfl
  size := by decide
  payload := by decide
  activity := by decide +kernel
  wanted := by decide +kernel
  cursor := by decide +kernel
  unfinished := by decide +kernel
  buffered := by decide +kernel
  unit := by decide
  room := by decide
  held := by decide +kernel

/-- However often the bytes are sent, they are all taken, and the ping tells what is left of their number
in 32 bits. -/
theorem reports_resending (count : Nat) :
    (next (resending count) lateInquiry).reports =
        [{ expected := 0, progress := 15, bytes := UInt32.ofNat (15 + count * 15), elapsedMs := 1 }] ∧
      Exchange.tallied config chip (history (resending count ++ [lateInquiry])) = 15 + count * 15 := by
  have hresent : ∀ b ∈ List.replicate count shortPiece, b.packet = .data shortPayload.encode := by
    intro b hb
    rw [List.eq_of_mem_replicate hb]
    rfl
  have hsplit : resending count = resending 0 ++ List.replicate count shortPiece := rfl
  have hrun : run (resending count) = (run (resending 0)).counted (UInt32.ofNat (15 + count * 15)) := by
    have hbytes : (run (resending 0)).engine.session.bytesRead = UInt32.ofNat 15 := by decide +kernel
    rw [run, hsplit, Snapshot.run_append]
    refine (holds_shortPayload.run_eq (by decide) hresent).trans ?_
    rw [hbytes, List.length_replicate, UInt32.ofNat_add]
    rfl
  have htally : Exchange.tallied config chip (history (resending count)) = 15 + count * 15 := by
    have hfirst : Exchange.tallied config chip (history (resending 0)) = 15 := by decide +kernel
    have hrest := holds_shortPayload.tally_eq (by decide) hresent 15
    rw [List.length_replicate] at hrest
    rw [history, hsplit, Snapshot.exchanges_append, Exchange.tallied, List.foldl_append]
    rw [history, Exchange.tallied] at hfirst
    rw [hfirst]
    exact hrest
  have hping : lateInquiry.packet = .control (ControlPacket.encode { command := .ping }) := rfl
  have hfigures : (run (resending 0)).engine.session.throughput 1 0 =
      { expected := 0, progress := 15, bytes := 15, elapsedMs := 1 } := by decide +kernel
  obtain ⟨haccepted, hreports⟩ : (next (resending count) lateInquiry).answer = .ok () ∧
      (next (resending count) lateInquiry).reports =
        [(run (resending count)).engine.session.throughput 1 0] :=
    Snapshot.exchange_ping (hrun ▸ (holds_shortPayload.recount _).running)
      holds_shortPayload.eraseSize rfl hping
  constructor
  · rw [hreports, hrun, Snapshot.throughput_counted, hfigures]
  · have hcommand : (next (resending count) lateInquiry).arrival.packet.command? =
        some { command := .ping } := by
      rw [next, Snapshot.exchange_arrival]
      rfl
    rw [history_concat, Exchange.tallied_concat, htally,
      Exchange.tally_of_command haccepted hcommand]
    rfl

end SmallDevice

open SmallDevice in
/-- Sent often enough, fifteen bytes are more than 32 bits can count, and long before that more than 32 bits
can tell as a rate. -/
theorem resent_payload_outgrows_figures :
    ((next (resending 286331153) lateInquiry).reports =
        [{ expected := 0, progress := 15, bytes := 14, elapsedMs := 1 }] ∧
      Exchange.tallied SmallDevice.config SmallDevice.chip
        (history (resending 286331153 ++ [lateInquiry])) = 4294967310 ∧
      ¬Throughput.Exact 4294967310 { expected := 0, progress := 15, bytes := 14, elapsedMs := 1 }) ∧
    ((next (resending 286331) lateInquiry).reports =
        [{ expected := 0, progress := 15, bytes := 4294980, elapsedMs := 1 }] ∧
      Exchange.tallied SmallDevice.config SmallDevice.chip
        (history (resending 286331 ++ [lateInquiry])) = 4294980 ∧
      ¬Throughput.Exact 4294980
        { expected := 0, progress := 15, bytes := 4294980, elapsedMs := 1 }) := by
  obtain ⟨hwrapped, htally⟩ := reports_resending 286331153
  obtain ⟨hcut, htally'⟩ := reports_resending 286331
  -- The count is 14, and the rate 12704.
  exact ⟨⟨hwrapped, htally, fun h => absurd h.bytes (by decide)⟩,
    hcut, htally', fun h => absurd (h.rate (by decide)) (by decide)⟩

end FirmwareUpdate
