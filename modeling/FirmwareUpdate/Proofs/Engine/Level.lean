import FirmwareUpdate.Proofs.Engine.Afresh
import FirmwareUpdate.Proofs.Engine.Faithful
import FirmwareUpdate.Proofs.Flash.Steady
import FirmwareUpdate.Proofs.Position

/-!
# Engines that differ in what they read

On a steady chip a unit that is read again is what it was. So two engines that differ in whether a
unit with nothing pending is buffered, and in what they read so far, cannot be told apart by what they
answer, program or report.
-/

namespace FirmwareUpdate

variable {page : Nat} {σ α : Type} {config : Config} {chip : NorFlash σ} {view : NorFlash.View σ}
variable {content : FlashContent}

namespace Board

open Attempt

/-- What was done outside the engine, but for reading flash. -/
def effects (board : Board σ) : List Event := board.events.toList.filter fun event => ¬event.Reads

/-- Both boards hold the content, and the same was done on them but for reading flash. -/
structure Level (view : NorFlash.View σ) (content : FlashContent) (board board' : Board σ) : Prop where
  holds : board.Holds view content
  holds' : board'.Holds view content
  effects : board'.effects = board.effects

/-- The same was done on both boards but for reading flash, whatever they hold. -/
def Leveled (view : NorFlash.View σ) (board board' : Board σ) : Prop :=
  ∃ content, Level view content board board'

variable {board board' : Board σ} {record : FlashCall} {attempt : EStateM FlashError σ α}
variable {post : α → Board σ → Board σ → Prop} {refused : UpdateError → Board σ → Board σ → Prop}
variable {apart : Board σ → Board σ → Prop}

theorem effects_push (h : board'.effects = board.effects) (event : Event) {flash flash' : σ} :
    effects ⟨flash', board'.events.push event⟩ = effects ⟨flash, board.events.push event⟩ := by
  simp only [effects, Array.toList_push, List.filter_append] at h ⊢
  rw [h]

/-- A call that fails alike ends alike on both boards. -/
theorem couples_call (halike : view.FailsAlike attempt) (sound : view.Sound board.flash)
    (sound' : view.Sound board'.flash)
    (hok : ∀ a a' flash flash', attempt.run board.flash = .ok a flash →
      attempt.run board'.flash = .ok a' flash' → a' = a ∧
        post a ⟨flash, board.events.push (.flash record none)⟩
          ⟨flash', board'.events.push (.flash record none)⟩)
    (herror : ∀ e flash flash', attempt.run board.flash = .error e flash →
      attempt.run board'.flash = .error e flash' →
        refused (.flash e) ⟨flash, board.events.push (.flash record (some e))⟩
          ⟨flash', board'.events.push (.flash record (some e))⟩) :
    (call record attempt).Couples (call record attempt) board board' post refused apart := by
  refine yields_call (fun a flash hrun => ?_) fun e flash hrun => ?_
  · obtain ⟨a', flash', hrun'⟩ := halike.succeeds sound sound' hrun
    refine yields_call (fun a'' flash'' hrun'' => Or.inl ?_) fun e flash'' hrun'' => ?_
    · exact hok a a'' flash flash'' hrun hrun''
    · rw [hrun'] at hrun''
      cases hrun''
  · obtain ⟨flash', hrun'⟩ := halike sound sound' hrun
    refine yields_call (fun a flash'' hrun'' => ?_) fun e' flash'' hrun'' => Or.inl ?_
    · rw [hrun'] at hrun''
      cases hrun''
    · obtain ⟨rfl, rfl⟩ := EStateM.Result.error.inj (hrun'.symm.trans hrun'')
      exact ⟨rfl, herror e flash flash' hrun hrun'⟩

namespace Level

theorem emit (h : Level view content board board') (event : Event) :
    Level view content { board with events := board.events.push event }
      { board' with events := board'.events.push event } :=
  ⟨h.holds, h.holds', effects_push h.effects event⟩

theorem read (steady : chip.Steady view) (h : Level view content board board') (address : UInt32)
    (length : Nat) :
    (Board.read chip address length).Couples (Board.read chip address length) board board'
      (fun _ => Level view content) (fun _ => Level view content) apart := by
  obtain ⟨⟨sound, rfl⟩, ⟨sound', hcontent⟩, heffects⟩ := h
  apply couples_call (steady.read_alike address length) sound sound'
  · intro bytes bytes' flash flash' hrun hrun'
    obtain ⟨hsound, hsame, hbytes⟩ := steady.read_ok sound hrun
    obtain ⟨hsound', hsame', hbytes'⟩ := steady.read_ok sound' hrun'
    refine ⟨Vector.toList_inj.mp (by rw [hbytes', hbytes, hcontent]), ⟨hsound, hsame⟩, ⟨hsound', ?_⟩,
      effects_push heffects _⟩
    exact hsame'.trans hcontent
  · intro e flash flash' hrun hrun'
    obtain ⟨hsound, hsame⟩ := steady.read_error sound hrun
    obtain ⟨hsound', hsame'⟩ := steady.read_error sound' hrun'
    exact ⟨⟨hsound, hsame⟩, ⟨hsound', hsame'.trans hcontent⟩, effects_push heffects _⟩

theorem hashFrom (steady : chip.Steady view) (h : Level view content board board')
    (hasher : Sha256.Hasher) (address : UInt32) (remaining : Nat) :
    (Region.hashFrom chip hasher address remaining).Couples
      (Region.hashFrom chip hasher address remaining) board board' (fun _ => Level view content)
      (fun _ => Level view content) fun _ _ => False := by
  induction remaining using Nat.strongRecOn generalizing hasher address board board' with
  | ind remaining ih =>
      rw [Region.hashFrom]
      refine couples_ite (fun _ => couples_pure h) fun hne => ?_
      refine (h.read steady _ _).bind (fun piece b b' hread => ?_) (fun _ => keepsApart_never)
        fun _ => keepsApart_never
      apply ih _ _ hread
      simp only [Region.pieceSize]
      omega

theorem digest (steady : chip.Steady view) (h : Level view content board board')
    (address size : UInt32) :
    (Region.digest chip address size).Couples (Region.digest chip address size) board board'
      (fun _ => Level view content) (fun _ => Level view content) fun _ _ => False := by
  unfold Region.digest
  split
  · exact couples_throw h
  · exact (h.hashFrom steady _ _ _).bind (fun _ _ _ hhashed => couples_pure hhashed)
      (fun _ => keepsApart_never) fun _ => keepsApart_never

end Level

namespace Leveled

theorem readWord (steady : chip.Steady view) (h : Leveled view board board') (address : UInt32) :
    (Confirmation.readWord chip address).Couples (Confirmation.readWord chip address) board board'
      (fun _ => Leveled view) (fun _ => Leveled view) fun _ _ => False := by
  obtain ⟨content, hlevel⟩ := h
  have hread : (Board.read chip address 4).Couples (Board.read chip address 4) board board'
      (fun _ => Leveled view) (fun _ => Leveled view) fun _ _ => False :=
    (hlevel.read steady address 4).mono (fun _ _ _ ht => ⟨content, ht⟩)
      (fun _ _ _ ht => ⟨content, ht⟩) fun _ _ => id
  exact hread.bind (fun _ _ _ ht => couples_pure ht) (fun _ => keepsApart_never)
    fun _ => keepsApart_never

theorem erase (steady : chip.Steady view) (h : Leveled view board board') (start stop : UInt32) :
    (Board.erase chip start stop).Couples (Board.erase chip start stop) board board'
      (fun _ => Leveled view) (fun _ => Leveled view) apart := by
  obtain ⟨content, ⟨sound, rfl⟩, ⟨sound', hcontent⟩, heffects⟩ := h
  apply couples_call (steady.erase_alike start stop) sound sound'
  · intro _ _ flash flash' hrun hrun'
    obtain ⟨hsound, herased⟩ := steady.erase_ok sound hrun
    obtain ⟨hsound', herased'⟩ := steady.erase_ok sound' hrun'
    exact ⟨rfl, _, ⟨hsound, herased⟩, ⟨hsound', by rw [herased', hcontent]⟩,
      effects_push heffects _⟩
  · intro e flash flash' hrun hrun'
    have hsame := steady.erase_error_content sound hrun
    have hsame' := steady.erase_error_content sound' hrun'
    exact ⟨_, ⟨steady.erase_error sound hrun, hsame⟩,
      ⟨steady.erase_error sound' hrun', hsame'.trans hcontent⟩, effects_push heffects _⟩

theorem write (steady : chip.Steady view) (h : Leveled view board board') (address : UInt32)
    (bytes : Bytes) :
    (Board.write chip address bytes).Couples (Board.write chip address bytes) board board'
      (fun _ => Leveled view) (fun _ => Leveled view) apart := by
  obtain ⟨content, ⟨sound, rfl⟩, ⟨sound', hcontent⟩, heffects⟩ := h
  apply couples_call (steady.write_alike address bytes) sound sound'
  · intro _ _ flash flash' hrun hrun'
    obtain ⟨hsound, hwritten⟩ := steady.write_ok sound hrun
    obtain ⟨hsound', hwritten'⟩ := steady.write_ok sound' hrun'
    exact ⟨rfl, _, ⟨hsound, hwritten⟩, ⟨hsound', by rw [hwritten', hcontent]⟩,
      effects_push heffects _⟩
  · intro e flash flash' hrun hrun'
    have hsame := steady.write_error_content sound hrun
    have hsame' := steady.write_error_content sound' hrun'
    exact ⟨_, ⟨steady.write_error sound hrun, hsame⟩,
      ⟨steady.write_error sound' hrun', hsame'.trans hcontent⟩, effects_push heffects _⟩

/-- A confirmation does the same on both boards. -/
theorem confirm (steady : chip.Steady view) (h : Leveled view board board') (record : UInt32) :
    (Confirmation.run chip record).Couples (Confirmation.run chip record) board board'
      (fun _ => Leveled view) (fun _ => Leveled view) fun _ _ => False := by
  rw [Confirmation.run]
  refine (h.readWord steady _).bind (fun tag b b' hread => ?_) (fun _ => keepsApart_never)
    fun _ => keepsApart_never
  refine couples_ite (fun _ => couples_pure hread) fun _ => couples_ite (fun _ => ?_) fun _ =>
    couples_throw hread
  rw [Confirmation.program]
  refine (hread.write steady _ _).bind (fun _ b b' hwritten => ?_) (fun _ => keepsApart_never)
    fun _ => keepsApart_never
  refine (hwritten.readWord steady _).bind (fun _ b b' hread => ?_) (fun _ => keepsApart_never)
    fun _ => keepsApart_never
  exact couples_refuseIf_bind (fun _ => hread) fun _ => couples_pure hread

end Leveled

end Board

/-- The unit can be read, in whatever sound state the chip is. -/
def UnitBuffer.Readable (chip : NorFlash σ) (view : NorFlash.View σ) (u : UnitBuffer page) : Prop :=
  ∀ flash, view.Sound flash → ∃ bytes left, (chip.read u.base page).run flash = .ok bytes left

namespace Assembly

open Attempt

/-- Nothing is pending, and the buffered unit, if there is one, is what taking it up again would
give. -/
structure Spare (chip : NorFlash σ) (view : NorFlash.View σ) (content : FlashContent)
    (a : Assembly page) : Prop where
  nothingPending : a.NothingPending
  again : ∀ u, a.buffer = some u →
    u.bytes.toList = content.peek u.base.toNat page ∧ u.Readable chip view

/-- The boards are level, and the units are the same or could be taken up again. -/
structure Level (chip : NorFlash σ) (view : NorFlash.View σ) (content : FlashContent)
    (t t' : Assembly page × Board σ) : Prop where
  vector : t'.1.vector = t.1.vector
  board : Board.Level view content t.2 t'.2
  buffer : (t'.1.buffer = t.1.buffer ∧ t'.1.pending = t.1.pending) ∨
    (t.1.Spare chip view content ∧ t'.1.Spare chip view content)

/-- The units are the same, and the boards are level. -/
def Found (view : NorFlash.View σ) (t t' : Assembly page × Board σ) : Prop :=
  t'.1 = t.1 ∧ Board.Leveled view t.2 t'.2

/-- The units and the boards are level, whatever the content. -/
def Leveled (chip : NorFlash σ) (view : NorFlash.View σ) (t t' : Assembly page × Board σ) : Prop :=
  ∃ content, Level chip view content t t'

variable {key : Aes256.Key} {a a' : Assembly page} {board board' : Board σ}

theorem Found.leveled {t t' : Assembly page × Board σ} (h : Found view t t') :
    Leveled chip view t t' := by
  obtain ⟨hsame, content, hboard⟩ := h
  exact ⟨content, by rw [hsame], hboard, Or.inl (by rw [hsame]; exact ⟨rfl, rfl⟩)⟩

/-- A unit is taken up alike, whatever was buffered before. -/
theorem load_level (steady : chip.Steady view) (hvector : a'.vector = a.vector)
    (hpending : a'.pending = a.pending) (h : Board.Level view content board board') (base : UInt32) :
    (load chip base).Couples (load chip base) (a, board) (a', board') (fun _ => Found view)
      (fun _ => Found view) fun _ _ => False := by
  have hrelease : a'.release = a.release := by rw [release, release, hvector, hpending]
  have hread : (Board.read chip base page).Couples (Board.read chip base page) board board'
      (fun _ => Board.Level view content) (fun _ => Board.Level view content) fun _ _ => False :=
    h.read steady base page
  simp only [Couples, yields_load]
  apply Yields.mono hread
  · intro bytes b hb
    refine hb.mono (fun bytes' b' hb' => ?_) fun _ _ => id
    obtain ⟨rfl, hlevel⟩ := hb'.resolve_right id
    exact Or.inl ⟨trivial, by rw [hvector, hpending], content, hlevel⟩
  · intro e b hb
    refine hb.mono (fun _ _ => id) fun e' b' hb' => ?_
    obtain ⟨rfl, hlevel⟩ := hb'.resolve_right id
    exact Or.inl ⟨rfl, hrelease, content, hlevel⟩

theorem reprogram_level (steady : chip.Steady view) (h : Board.Leveled view board board')
    (u : UnitBuffer page) (stop : UInt32) :
    (reprogram chip u stop).Couples (reprogram chip u stop) board board'
      (fun _ => Board.Leveled view) (fun _ => Board.Leveled view) fun _ _ => False :=
  (h.erase steady _ _).bind (fun _ _ _ herased => herased.write steady _ _)
    (fun _ => keepsApart_never) fun _ => keepsApart_never

theorem program_level (steady : chip.Steady view) (h : Board.Leveled view board board')
    (u : UnitBuffer page) :
    (program chip u).Couples (program chip u) (a, board) (a, board') (fun _ => Found view)
      (fun _ => Found view) fun _ _ => False := by
  simp only [Couples, yields_program]
  cases Address.add? u.base (UInt32.ofNat page) with
  | none => exact Or.inl ⟨trivial, rfl, h⟩
  | some stop =>
      apply Yields.mono (reprogram_level steady h u stop)
      · intro _ b hb
        refine hb.mono (fun _ b' hb' => ?_) fun _ _ => id
        exact Or.inl ⟨trivial, rfl, (hb'.resolve_right id).2⟩
      · intro e b hb
        refine hb.mono (fun _ _ => id) fun e' b' hb' => ?_
        obtain ⟨rfl, hlevel⟩ := hb'.resolve_right id
        exact Or.inl ⟨rfl, rfl, hlevel⟩

theorem commit_found (steady : chip.Steady view) (h : Board.Leveled view board board') :
    (commit key chip).Couples (commit key chip) (a, board) (a, board') (fun _ => Found view)
      (fun _ => Found view) fun _ _ => False := by
  rcases a.nothingToCommit_or_pending with hnothing | ⟨u, s, hu, hs⟩
  · rw [Couples, yields_commit_nothing hnothing, yields_commit_nothing hnothing]
    exact Or.inl ⟨rfl, rfl, h⟩
  · rw [Couples, yields_commit_pending hu hs]
    cases hplain : Chain.decrypt? key a.vector (u.spanBytes s) with
    | none =>
        rw [yields_commit_pending hu hs, hplain]
        exact Or.inl ⟨rfl, rfl, h⟩
    | some decrypted =>
        apply Yields.mono (program_level steady h (u.settle s decrypted.1))
        · intro _ t ht
          rw [yields_commit_pending hu hs, hplain]
          exact ht
        · intro e t ht
          rw [yields_commit_pending hu hs, hplain]
          exact ht

/-- Units that are level are the same, or both could be taken up again. -/
theorem Level.eq_or_spare {t t' : Assembly page × Board σ} (h : Level chip view content t t') :
    t'.1 = t.1 ∨ (t.1.Spare chip view content ∧ t'.1.Spare chip view content) := by
  refine h.buffer.imp_left fun ⟨hbuffer, hpending⟩ => ?_
  obtain ⟨⟨buffer, pending, vector⟩, board⟩ := t
  obtain ⟨⟨buffer', pending', vector'⟩, board'⟩ := t'
  obtain rfl : buffer' = buffer := hbuffer
  obtain rfl : pending' = pending := hpending
  obtain rfl : vector' = vector := h.vector
  rfl

/-- Units that could be taken up again have nothing to commit. -/
theorem commit_level (steady : chip.Steady view) (h : Level chip view content (a, board) (a', board')) :
    (commit key chip).Couples (commit key chip) (a, board) (a', board') (fun _ => Leveled chip view)
      (fun _ => Leveled chip view) fun _ _ => False := by
  rcases h.eq_or_spare with heq | ⟨hspare, hspare'⟩
  · obtain rfl : a' = a := heq
    exact (commit_found steady ⟨content, h.board⟩).mono (fun _ _ _ ht => ht.leveled)
      (fun _ _ _ ht => ht.leveled) fun _ _ => id
  · rw [Couples, yields_commit_nothingPending hspare.nothingPending,
      yields_commit_nothingPending hspare'.nothingPending]
    exact Or.inl ⟨rfl, content, h⟩

theorem Spare.unit_eq (h : a.Spare chip view content) (h' : a'.Spare chip view content)
    {u u' : UnitBuffer page} (hu : a.buffer = some u) (hu' : a'.buffer = some u')
    (hbase : u'.base = u.base) : u' = u := by
  obtain ⟨hbytes, -⟩ := h.again u hu
  obtain ⟨hbytes', -⟩ := h'.again u' hu'
  obtain ⟨base, bytes⟩ := u
  obtain ⟨base', bytes'⟩ := u'
  obtain rfl : base' = base := hbase
  obtain rfl : bytes' = bytes := Vector.toList_inj.mp (hbytes'.trans hbytes.symm)
  rfl

/-- A unit that could be taken up again is what is read where it stands. -/
theorem Spare.yields_load (steady : chip.Steady view) (h : a.Spare chip view content)
    {u : UnitBuffer page} (hu : a.buffer = some u) (hboard : board.Holds view content)
    {a' : Assembly page} :
    (load chip u.base).Yields (a', board)
      (fun _ st => st.1 = { a' with buffer := some u } ∧ st.2.Holds view content ∧
        st.2.effects = board.effects)
      fun _ _ => False := by
  obtain ⟨hbytes, hreadable⟩ := h.again u hu
  obtain ⟨sound, rfl⟩ := hboard
  rw [Assembly.yields_load]
  refine Board.yields_call (fun bytes flash hrun => ?_) fun e flash hrun => ?_
  · obtain ⟨hsound, hcontent, hread⟩ := steady.read_ok sound hrun
    obtain ⟨base, old⟩ := u
    obtain rfl : old = bytes := Vector.toList_inj.mp (hbytes.trans hread.symm)
    exact ⟨rfl, ⟨hsound, hcontent⟩, by simp [Board.effects, Event.Reads]⟩
  · obtain ⟨bytes, left, hok⟩ := hreadable _ sound
    rw [hrun] at hok
    cases hok

/-- Seeking an address where a unit could be taken up again comes to that unit, whether or not it is
buffered. -/
theorem Spare.yields_seek (steady : chip.Steady view) (h : a.Spare chip view content)
    (h' : a'.Spare chip view content) (hvector : a'.vector = a.vector)
    (hboard : board.Holds view content) {address : UInt32}
    (hthere : a.base? = some (Address.unitBase page address)) :
    (seek key chip address).Yields (a', board)
      (fun _ st => st.1 = a ∧ st.2.Holds view content ∧ st.2.effects = board.effects)
      fun _ _ => False := by
  obtain ⟨u, hu, hbase⟩ := Option.map_eq_some_iff.mp hthere
  have hpending : a'.pending = a.pending := h'.nothingPending.trans h.nothingPending.symm
  have hassembly {u' : UnitBuffer page} (hunit : u' = u) : { a' with buffer := some u' } = a := by
    rw [hvector, hpending, hunit, ← hu]
  refine (yields_seek_nothing h'.nothingPending).mpr ⟨fun hthere' => ?_, fun _ => ?_⟩
  · obtain ⟨u', hu', hbase'⟩ := Option.map_eq_some_iff.mp hthere'
    refine ⟨?_, hboard, rfl⟩
    rw [← hassembly (h.unit_eq h' hu hu' (hbase'.trans hbase.symm)), ← hu']
  · rw [← hbase]
    refine (h.yields_load steady hu hboard).mono (fun _ st hst => ?_) fun _ _ => id
    exact ⟨hst.1.trans (hassembly rfl), hst.2⟩

/-- Where a unit could be taken up again, it makes no difference whether it has to be. -/
theorem Spare.seek_couples (steady : chip.Steady view) (h : a.Spare chip view content)
    (h' : a'.Spare chip view content) (hvector : a'.vector = a.vector)
    (hboard : Board.Level view content board board') (address : UInt32) :
    (seek key chip address).Couples (seek key chip address) (a, board) (a', board')
      (fun _ => Found view) (fun _ => Found view) fun _ _ => False := by
  -- An engine that has the unit waits for the other one to come to it. If neither has it, both read it.
  by_cases hthere : a.base? = some (Address.unitBase page address)
  · refine (yields_seek_nothing h.nothingPending).mpr ⟨fun _ => ?_, fun haway => absurd hthere haway⟩
    refine (h.yields_seek steady h' hvector hboard.holds' hthere).mono (fun _ st hst => ?_)
      fun _ _ => False.elim
    obtain ⟨hsame, hholds, heffects⟩ := hst
    exact Or.inl ⟨rfl, hsame, content, hboard.holds, hholds, heffects.trans hboard.effects⟩
  by_cases hthere' : a'.base? = some (Address.unitBase page address)
  · refine Yields.mono (h'.yields_seek steady h hvector.symm hboard.holds hthere') (fun _ st hst => ?_)
      fun _ _ => False.elim
    obtain ⟨hsame, hholds, heffects⟩ := hst
    refine (yields_seek_nothing h'.nothingPending).mpr
      ⟨fun _ => Or.inl ⟨rfl, hsame.symm, content, hholds, hboard.holds', ?_⟩,
        fun haway => absurd hthere' haway⟩
    exact hboard.effects.trans heffects.symm
  · rw [Couples, yields_seek_nothing h.nothingPending]
    refine ⟨fun hbase => absurd hbase hthere, fun _ => ?_⟩
    have hpending : a'.pending = a.pending := h'.nothingPending.trans h.nothingPending.symm
    apply Yields.mono (load_level steady hvector hpending hboard (Address.unitBase page address))
    · exact fun _ _ ht => (yields_seek_nothing h'.nothingPending).mpr
        ⟨fun hbase => absurd hbase hthere', fun _ => ht⟩
    · exact fun _ _ ht => (yields_seek_nothing h'.nothingPending).mpr
        ⟨fun hbase => absurd hbase hthere', fun _ => ht⟩

/-- The unit sought is the same afterwards, whether it was buffered or had to be read. -/
theorem seek_level (steady : chip.Steady view) (h : Level chip view content (a, board) (a', board'))
    (address : UInt32) :
    (seek key chip address).Couples (seek key chip address) (a, board) (a', board')
      (fun _ => Found view) (fun _ => Leveled chip view) fun _ _ => False := by
  have hfound : (seek key chip address).Couples (seek key chip address) (a, board) (a', board')
      (fun _ => Found view) (fun _ => Found view) fun _ _ => False := by
    rcases h.eq_or_spare with heq | ⟨hspare, hspare'⟩
    · obtain rfl : a' = a := heq
      refine Assembly.seek_couples rfl ⟨rfl, content, h.board⟩
        ((commit_found steady ⟨content, h.board⟩).bind ?_
        (fun _ => keepsApart_never) fun _ => keepsApart_never)
      rintro _ ⟨b, board⟩ ⟨b', board'⟩ ⟨rfl, content', hboard⟩
      exact load_level steady rfl rfl hboard _
    · exact hspare.seek_couples steady hspare' h.vector h.board address
  exact hfound.mono (fun _ _ _ ht => ht) (fun _ _ _ ht => ht.leveled) fun _ _ => id

/-- Bytes are laid alike into units that are the same. -/
theorem Found.insert_couples (h : Found view (a, board) (a', board')) (address : UInt32)
    (bytes : Bytes) :
    (insert address bytes).Couples (insert address bytes) (a, board) (a', board')
      (fun _ => Found view) (fun _ => Found view) fun _ _ => False := by
  obtain ⟨hsame, hboard⟩ := h
  obtain rfl : a' = a := hsame
  simp only [Couples, Yields, EStateM.run, insert]
  cases hu : a'.buffer with
  | none => exact Or.inl ⟨rfl, rfl, hboard⟩
  | some u =>
      by_cases hcontains : u.Contains address
      · simp only [hcontains, if_true]
        exact Or.inl ⟨trivial, rfl, hboard⟩
      · simp only [hcontains, if_false]
        exact Or.inl ⟨trivial, rfl, hboard⟩

theorem Leveled.emit {t t' : Assembly page × Board σ} (h : Leveled chip view t t') (event : Event) :
    Leveled chip view (t.1, { t.2 with events := t.2.events.push event })
      (t'.1, { t'.2 with events := t'.2.events.push event }) := by
  obtain ⟨content, hvector, hboard, hbuffer⟩ := h
  exact ⟨content, hvector, hboard.emit event, hbuffer⟩

theorem Leveled.pendingFrom {t t' : Assembly page × Board σ} (h : Leveled chip view t t') :
    t'.1.pendingFrom = t.1.pendingFrom := by
  obtain ⟨content, hlevel⟩ := h
  rcases hlevel.eq_or_spare with hsame | ⟨hspare, hspare'⟩
  · rw [hsame]
  · rw [pendingFrom_of_nothing hspare.nothingPending, pendingFrom_of_nothing hspare'.nothingPending]

end Assembly

namespace Engine

open Attempt

/-- Payload on engines that differ in what they read. -/
theorem pairs_leveled (steady : chip.Steady view) :
    Pairs config chip (Assembly.Leveled chip view : Assembly page × Board σ → _ → Prop)
      (Assembly.Found view) (fun _ => Assembly.Leveled chip view) fun _ _ => False where
  pendingFrom h := h.pendingFrom
  emit h event _ := h.emit event
  left h _ _ := h
  seek := by
    rintro ⟨a, board⟩ ⟨a', board'⟩ ⟨content, h⟩ address
    exact Assembly.seek_level steady h address
  insert h address bytes :=
    (h.insert_couples address bytes).mono (fun _ _ _ ht => ht.leveled) (fun _ _ _ ht => ht.leveled)
      fun _ _ => id
  commit := by
    rintro ⟨a, board⟩ ⟨a', board'⟩ ⟨content, h⟩
    exact Assembly.commit_level steady h
  lasting _ :=
    ⟨Board.keptByCalls_of_push fun _ _ _ => id, Board.keptByCalls_of_push fun _ _ _ => id⟩

/-- Packets other than payload on engines that differ in what they read. -/
theorem parallel_leveled (steady : chip.Steady view) :
    Parallel config chip (Assembly.Leveled chip view : Assembly page × Board σ → _ → Prop)
      (Assembly.Leveled chip view) where
  discard := by
    rintro ⟨a, board⟩ ⟨a', board'⟩ ⟨content, h⟩
    exact ⟨content, h.vector, h.board, Or.inl ⟨rfl, rfl⟩⟩
  emit h event _ := h.emit event
  seed := by
    rintro ⟨a, board⟩ ⟨a', board'⟩ ⟨content, h⟩ vector
    exact ⟨content, rfl, h.board, h.buffer.imp id fun hspare =>
      ⟨⟨hspare.1.nothingPending, hspare.1.again⟩, ⟨hspare.2.nothingPending, hspare.2.again⟩⟩⟩
  seek := by
    rintro ⟨a, board⟩ ⟨a', board'⟩ ⟨content, h⟩ _ address
    exact (Assembly.seek_level steady h address).mono (fun _ _ _ ht => ht.leveled)
      (fun _ _ _ => id) fun _ _ => id
  digest := by
    rintro a a' board board' ⟨content, h⟩ address size
    exact (h.board.digest steady address size).mono
      (fun _ _ _ ht => ⟨content, h.vector, ht, h.buffer⟩)
      (fun _ _ _ ht => ⟨content, h.vector, ht, h.buffer⟩) fun _ _ => id
  confirm := by
    rintro a a' board board' ⟨content, h⟩
    have hgivenUp {b b' : Board σ} (hboard : Board.Leveled view b b') :
        Assembly.Leveled chip view (a.discard, b) (a'.discard, b') := by
      obtain ⟨content', hlevel⟩ := hboard
      exact ⟨content', h.vector, hlevel, Or.inl ⟨rfl, rfl⟩⟩
    exact (Board.Leveled.confirm steady ⟨content, h.board⟩ config.appBase).mono
      (fun _ _ _ => hgivenUp) (fun _ _ _ => hgivenUp) fun _ _ => id

end Engine

end FirmwareUpdate
