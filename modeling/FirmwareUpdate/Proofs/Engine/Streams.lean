import FirmwareUpdate.Proofs.Engine.Resumption
import FirmwareUpdate.Proofs.Engine.Verification

/-!
# Transfers one after another

A transfer leaves the chaining vector that the next one begins with, and when a unit that both share is
programmed again, the buffer holds what flash holds. So the ciphertexts of consecutive ranges decrypt as
one stream, whatever comes in between that leaves flash and the vector alone.
-/

namespace FirmwareUpdate

variable {page : Nat} {σ : Type} {config : Config} {chip : NorFlash σ} {view : NorFlash.View σ}

/-- Outside a transfer the command changes neither flash nor the chaining vector, nor does it ask for
data that would. -/
def Command.Neutral : Command → Prop
  | .ping | .reset | .digest | .restart => True
  | .data | .vector | .done => False

instance : (command : Command) → Decidable command.Neutral
  | .ping | .reset | .digest | .restart => inferInstanceAs (Decidable True)
  | .data | .vector | .done => inferInstanceAs (Decidable False)

namespace Exchange

/-- A command that is not neutral was rejected. -/
def Neutral (x : Exchange page σ) : Prop :=
  x.answer = .ok () → ∀ p ∈ x.arrival.packet.command?, p.command.Neutral

/-- No call failed if flash was erased or programmed. -/
def ChangesReliably (x : Exchange page σ) : Prop :=
  x.Erases ∨ x.Writes → ¬x.FlashFailed

/-- Pending bytes are lost on reliable flash only if units do not fit. -/
theorem ChangesReliably.not_flashFailed_of_givesUp {x : Exchange page σ} (h : x.ChangesReliably)
    (hgivesUp : x.GivesUp) : ¬x.FlashFailed := by
  intro hfailed
  obtain ⟨_, _, hread⟩ := hgivesUp
  obtain ⟨call, e, hmem⟩ := id hfailed
  cases call with
  | read address length => exact hread ⟨address, length, e, hmem⟩
  | erase start stop => exact h (Or.inl ⟨start, stop, _, hmem⟩) hfailed
  | write address bytes => exact h (Or.inr ⟨address, bytes, _, hmem⟩) hfailed

end Exchange

/-- Ciphertexts are sent for consecutive ranges from an address on, each as a transfer of its own that
completes. Between the transfers only neutral commands are accepted. -/
inductive Snapshot.Streams (config : Config) (chip : NorFlash σ) :
    Snapshot page σ → UInt32 → List Bytes → List Arrival → Prop where
  | nil {s base} : Streams config chip s base [] []
  | transfer {s base next a ciphertext ciphertexts sent between rest} {length : UInt16}
      (begins : (s.exchange config chip a).Begins base length)
      (size : ciphertext.length = length.toNat)
      (suits : ∀ b ∈ sent, b.packet.Suits base ciphertext)
      (completes : (s.exchange config chip a).after.IdleOnceAfter config chip sent)
      (neutral : ∀ x ∈ (s.run config chip (a :: sent)).exchanges config chip between, x.Neutral)
      (next_eq : next.toNat = base.toNat + length.toNat)
      (others : Streams config chip (s.run config chip (a :: sent ++ between)) next ciphertexts rest) :
      Streams config chip s base (ciphertext :: ciphertexts) (a :: sent ++ between ++ rest)

namespace Engine

open Attempt

variable {now : UInt64} {e : Engine page} {board : Board σ} {vector : Block}

/-- Neither payload nor a vector is awaited, and this is the vector in force. -/
structure Rests (vector : Block) (e : Engine page) : Prop where
  awaits : e.session.activity = .idle ∨ ∃ address size, e.session.activity = .digest address size
  vector_eq : e.assembly.vector = vector

theorem Rests.haltedBy (h : e.Rests vector) (err : UpdateError) : (e.haltedBy err).Rests vector :=
  ⟨h.awaits, h.vector_eq⟩

theorem Rests.not_transfer (h : e.Rests vector) (base length : UInt32) :
    e.session.activity ≠ .transfer base length := by
  intro htransfer
  rcases h.awaits with hidle | ⟨address, size, hdigest⟩
  · simp [hidle] at htransfer
  · simp [hdigest] at htransfer

theorem execute_rests (hs : e.Consistent) (h : e.Rests vector) {packet : ControlPacket} :
    (execute config chip now packet).Yields (e, board)
      (fun _ st => packet.command.Neutral → st.1.Rests vector) fun _ st => st.1.Rests vector := by
  apply yields_execute (fun _ _ => h)
  cases packet.command with
  | restart => exact fun _ => ⟨Or.inl rfl, h.vector_eq⟩
  | data =>
      intro hidle _ _ _
      rw [Assembly.yields_seek_nothing (hs.nothingPending (by simp [hidle]))]
      refine ⟨fun _ hneutral => hneutral.elim, fun _ => Assembly.yields_load.mpr ?_⟩
      exact yields_of_forall (fun _ _ hneutral => hneutral.elim) fun _ _ => ⟨h.awaits, h.vector_eq⟩
  | vector => exact fun _ hneutral => hneutral.elim
  | digest => exact fun _ _ => ⟨Or.inr ⟨_, _, rfl⟩, h.vector_eq⟩
  | done =>
      intro _ _
      exact yields_of_forall (fun _ _ hneutral => hneutral.elim) fun _ _ => ⟨h.awaits, h.vector_eq⟩
  | reset => exact fun _ => ⟨h.awaits, h.vector_eq⟩
  | ping => exact fun _ => h

theorem consume_rests (h : e.Rests vector) {bytes : Bytes} :
    (consume config chip now bytes).Yields (e, board) (fun _ st => st.1.Rests vector)
      fun _ st => st.1.Rests vector := by
  have hended {session : Session} (hidle : session.activity = .idle) :
      ({ e with session } : Engine page).Rests vector :=
    ⟨Or.inl hidle, h.vector_eq⟩
  rcases h.awaits with hidle | ⟨address, size, hdigest⟩
  · refine yields_consume.mpr ⟨fun _ => hended (by simp [hidle, dropExpected]), fun _ => ?_⟩
    rw [hidle]
    exact h
  · refine yields_consume.mpr ⟨fun _ => hended (by simp [hdigest, dropExpected]), fun _ => ?_⟩
    rw [hdigest]
    refine yields_receiveDigest (fun _ => hended rfl) fun _ _ => yields_checkDigest.mpr ?_
    exact yields_of_forall (fun _ _ => ⟨fun _ => hended rfl, fun _ => hended rfl⟩)
      fun _ _ => hended rfl

theorem receive_rests (hs : e.Consistent) (h : e.Rests vector) {packet : Packet} :
    (receive config chip now packet).Yields (e, board)
      (fun _ st => (∀ p ∈ packet.command?, p.command.Neutral) → st.1.Rests vector)
      fun _ st => st.1.Rests vector := by
  refine yields_receive.mpr ⟨fun _ => h, fun _ _ => ⟨h.awaits, h.vector_eq⟩, fun _ _ => ?_⟩
  cases packet with
  | control bytes =>
      refine yields_handle_control (fun _ _ => h.haltedBy _) fun packet hdecode => ?_
      refine (execute_rests hs h).mono (fun _ _ hst hneutral => hst (hneutral packet ?_))
        fun err _ hst => hst.haltedBy err
      simp [Packet.command?, hdecode, Except.toOption]
  | data bytes => exact (consume_rests h).mono (fun _ _ hst _ => hst) fun err _ hst => hst.haltedBy err

end Engine

namespace Snapshot

variable {s : Snapshot page σ} {a : Arrival} {as : List Arrival} {base : UInt32}

theorem Reachable.run (hs : s.Reachable config chip view) (as : List Arrival) :
    (s.run config chip as).Reachable config chip view := by
  obtain ⟨flash, past, sound, rfl⟩ := hs
  exact ⟨flash, past ++ as, sound, run_append.symm⟩

/-! ### Between transfers -/

/-- A `done` that is rejected leaves flash as it is, unless the tag could not be programmed or read
back. -/
theorem exchange_done_rejected (honest : chip.Honest view) (sound : view.Sound s.flash)
    (h : (s.exchange config chip a).Asks .done) :
    (s.exchange config chip a).answer = .ok () ∨
      view.content (s.exchange config chip a).after.flash = view.content s.flash ∨
      ((s.exchange config chip a).Writes ∧ (s.exchange config chip a).FlashFailed) := by
  apply exchange_done h (Q := fun answer board => answer = .ok () ∨
    view.content board.flash = view.content s.flash ∨
      ((∃ address bytes failure, .flash (.write address bytes) failure ∈ board.events) ∧
        ∃ call e, .flash call (some e) ∈ board.events))
  · exact fun _ _ => Or.inr (Or.inl rfl)
  · intro _
    apply Confirmation.yields_run honest.truthful (sound : view.Sound (Board.mk s.flash #[]).flash)
    · exact fun _ _ _ hcontent => Or.inr (Or.inl hcontent)
    · exact fun _ _ _ _ => Or.inl rfl
    · exact fun _ _ _ _ hcontent => Or.inr (Or.inl hcontent)
    · intro htag flash hsound hcontent
      apply Confirmation.yields_program honest hsound (by rw [hcontent]; exact htag)
      · intro e _ _ _
        exact Or.inr (Or.inr ⟨⟨_, _, _, Array.mem_push_self⟩, _, e, Array.mem_push_self⟩)
      · intro e _ _ _
        exact Or.inr (Or.inr
          ⟨⟨_, _, _, Array.mem_push_of_mem _ Array.mem_push_self⟩, _, e, Array.mem_push_self⟩)
      · exact fun _ _ _ => Or.inl rfl

theorem exchange_rests (hs : s.engine.Consistent) {vector : Block} (h : s.engine.Rests vector)
    (hneutral : (s.exchange config chip a).Neutral) :
    (s.exchange config chip a).after.engine.Rests vector := by
  rw [Exchange.Neutral, exchange_arrival] at hneutral
  refine exchange_of_yields (Q := fun answer e _ =>
    (answer = .ok () → ∀ p ∈ a.packet.command?, p.command.Neutral) → e.Rests vector) ?_ hneutral
  exact (Engine.receive_rests hs h).mono (fun _ _ hst hcommand => hst (hcommand rfl))
    fun _ _ hst _ => hst

theorem neutral_of_command (h : ∀ p ∈ a.packet.command?, p.command.Neutral) :
    (s.exchange config chip a).Neutral := by
  rw [Exchange.Neutral, exchange_arrival]
  exact fun _ => h

/-- What comes between transfers leaves flash and the chaining vector as they are. -/
theorem exchange_neutral (honest : chip.Honest view) (sound : view.Sound s.flash)
    (hs : s.engine.Consistent) {vector : Block} (h : s.engine.Rests vector)
    (hneutral : (s.exchange config chip a).Neutral)
    (hreliable : (s.exchange config chip a).ChangesReliably) :
    view.content (s.exchange config chip a).after.flash = view.content s.flash ∧
      (s.exchange config chip a).after.engine.Rests vector := by
  refine ⟨?_, exchange_rests hs h hneutral⟩
  by_cases hdone : (s.exchange config chip a).Asks .done
  · rcases exchange_done_rejected honest sound hdone with haccepted | hcontent | ⟨hwrites, hfailed⟩
    · obtain ⟨p, hp, hcommand⟩ := hdone
      have hcontradiction := hneutral haccepted p hp
      rw [hcommand] at hcontradiction
      exact hcontradiction.elim
    · exact hcontent
    · exact absurd hfailed (hreliable (Or.inr hwrites))
  · refine exchange_content honest sound hs ?_ hdone
    rintro ⟨_, base, length, htransfer⟩
    rw [exchange_before] at htransfer
    exact h.not_transfer base length htransfer

theorem run_neutral (honest : chip.Honest view) (hfits : page < UInt32.size)
    (hs : s.Reachable config chip view) {vector : Block} (h : s.engine.Rests vector)
    (hneutral : ∀ x ∈ s.exchanges config chip as, x.Neutral)
    (hreliable : ∀ x ∈ s.exchanges config chip as, x.ChangesReliably) :
    view.content (s.run config chip as).flash = view.content s.flash ∧
      (s.run config chip as).engine.Rests vector := by
  induction as generalizing s with
  | nil => exact ⟨rfl, h⟩
  | cons a as ih =>
      rw [exchanges, List.forall_mem_cons] at hneutral hreliable
      obtain ⟨hcontent, hrests⟩ := exchange_neutral honest (hs.faithful honest hfits).1 hs.consistent h
        hneutral.1 hreliable.1
      obtain ⟨hcontent', hrests'⟩ := ih (hs.run [a]) hrests hneutral.2 hreliable.2
      exact ⟨hcontent'.trans hcontent, hrests'⟩

/-! ### A transfer on reliable flash -/

/-- A transfer completes only if the last unit of its range ends within the address space. -/
theorem run_last (hpos : 0 < page) (hfits : page < UInt32.size) {length : UInt32}
    (h : s.engine.Transferring config base length) {ciphertext : Bytes}
    (hsuits : ∀ a ∈ as, a.packet.Suits base ciphertext) (hends : s.IdleOnceAfter config chip as) :
    (base.toNat + length.toNat - 1) / page * page + page < UInt32.size := by
  induction as generalizing s with
  | nil =>
      have hidle : s.engine.session.activity = .idle := hends.1
      exact absurd (hidle.symm.trans h.activity) (by simp)
  | cons a as ih =>
      rw [List.forall_mem_cons] at hsuits
      obtain ⟨_, _, _, ⟨htransferring, _⟩ | ⟨hidle, _⟩⟩ := exchange_lays chip hpos hfits h hsuits.1
      · exact ih htransferring hsuits.2 hends.tail
      · exact exchange_last hpos hfits h hsuits.1 hidle

/-- On flash that is changed reliably a transfer decrypts to its range, and leaves the vector for what
follows. -/
theorem run_transfer (honest : chip.Honest view) (hpos : 0 < page) (hunit : page % Block.size = 0)
    (hfits : page < UInt32.size) (hs : s.Reachable config chip view) {length : UInt16}
    (hbegins : (s.exchange config chip a).Begins base length) {ciphertext : Bytes}
    (hlength : ciphertext.length = length.toNat)
    (hsuits : ∀ b ∈ as, b.packet.Suits base ciphertext)
    (hends : (s.exchange config chip a).after.IdleOnceAfter config chip as)
    (hreliable : ∀ x ∈ (s.exchange config chip a).after.exchanges config chip as, x.ChangesReliably) :
    view.content (s.run config chip (a :: as)).flash =
        (view.content s.flash).lay base.toNat
          (Chain.plaintext config.key s.engine.assembly.vector ciphertext) ∧
      (s.run config chip (a :: as)).engine.Rests
        (Chain.nextVector s.engine.assembly.vector ciphertext) := by
  have hsize : length.toUInt32.toNat = length.toNat := by simp
  obtain ⟨htransferring, _⟩ := exchange_transferring hpos hfits
    (fun u hu => ((hs.faithful honest hfits).2 u hu).1) hs.consistent hbegins
  have hlast := run_last hpos hfits htransferring hsuits hends
  rw [hsize] at hlast
  obtain ⟨hfit, hunderWay⟩ := exchange_begins honest hs hpos hunit hbegins hlength hlast
  obtain ⟨hidle, hcontent, hvector⟩ :=
    run_delivers honest hpos hfits ⟨hfit.base, hfit.length, hfit.limit_lt⟩ rfl
      (hsize.trans hlength.symm) hunderWay hsuits
      (fun x hx hlost => hlost.2.elim
        ((hreliable x hx).not_flashFailed_of_givesUp hlost.1) fun hnot => hnot hfit) hends
  simp only [Delivery.contentAfter, Delivery.vectorAfter, List.take_length] at hcontent hvector
  exact ⟨hcontent, Or.inl hidle, hvector⟩

/-! ### Consecutive transfers -/

/-- What is sent is blocks, at least one in each transfer. -/
theorem Streams.blocks {ciphertexts : List Bytes} (h : s.Streams config chip base ciphertexts as) :
    ∀ c ∈ ciphertexts, 0 < c.length ∧ c.length % Block.size = 0 := by
  induction h with
  | nil => simp
  | @transfer s _ _ _ _ _ _ _ _ length begins size _ _ _ _ _ ih =>
      have hblocks : 0 < length.toUInt32.toNat ∧ length.toUInt32.toNat % Block.size = 0 := by
        refine exchange_of_begins begins
          (Q := fun _ => 0 < length.toUInt32.toNat ∧ length.toUInt32.toNat % Block.size = 0)
          fun _ hnonempty _ hwhole => Attempt.yields_of_forall (fun _ _ => ⟨?_, hwhole.2⟩)
            fun _ _ => trivial
        exact Nat.pos_of_ne_zero fun hzero => hnonempty (UInt32.toNat_inj.mp hzero)
      rw [List.forall_mem_cons, size]
      exact ⟨by simpa using hblocks, ih⟩

/-- Consecutive transfers decrypt as one stream to their joint range, and leave the vector for what
follows it. -/
theorem Streams.lays {ciphertexts : List Bytes} (h : s.Streams config chip base ciphertexts as)
    (honest : chip.Honest view) (hpos : 0 < page) (hunit : page % Block.size = 0)
    (hfits : page < UInt32.size) (hs : s.Reachable config chip view)
    (hreliable : ∀ x ∈ s.exchanges config chip as, x.ChangesReliably) :
    view.content (s.run config chip as).flash =
        (view.content s.flash).lay base.toNat
          (Chain.plaintext config.key s.engine.assembly.vector ciphertexts.flatten) ∧
      (s.run config chip as).engine.assembly.vector =
        Chain.nextVector s.engine.assembly.vector ciphertexts.flatten := by
  induction h with
  | nil => simp [run]
  | @transfer s base next a c cs sent between rest length begins size suits completes neutral next_eq
      others ih =>
      have hwhole : c.length % Block.size = 0 :=
        (Streams.blocks (.transfer begins size suits completes neutral next_eq others) c
          List.mem_cons_self).2
      simp only [exchanges_append, List.forall_mem_append] at hreliable
      obtain ⟨⟨hsent, hbetween⟩, hothers⟩ := hreliable
      rw [exchanges, List.forall_mem_cons] at hsent
      obtain ⟨hcontent, hrests⟩ := run_transfer honest hpos hunit hfits hs begins size suits completes
        hsent.2
      obtain ⟨hsame, hrests'⟩ := run_neutral honest hfits (hs.run (a :: sent)) hrests neutral hbetween
      obtain ⟨hjoint, hvector⟩ := ih (hs.run _) hothers
      rw [← run_append] at hsame hrests'
      rw [hrests'.vector_eq] at hjoint hvector
      rw [run_append, List.flatten_cons, Chain.plaintext_append hwhole, FlashContent.lay_append,
        Chain.length_plaintext _ _ hwhole, Chain.nextVector_append hwhole]
      refine ⟨?_, hvector⟩
      rw [hjoint, hsame, hcontent, next_eq, size]

/-- Consecutive transfers decrypt as one stream under the vector in force before the first: their joint
range holds the plaintext of all the ciphertexts together, the rest of flash is as before, and the last
block sent is the vector for what follows. A single transfer of the same bytes comes to the same. -/
theorem consecutive_transfers_decrypt_as_one (config : Config) (chip : NorFlash σ)
    (view : NorFlash.View σ) (honest : chip.Honest view) (hpos : 0 < page)
    (hunit : page % Block.size = 0) (hfits : page < UInt32.size) (s : Snapshot page σ)
    (hs : s.Reachable config chip view) (base : UInt32) (ciphertexts : List Bytes) (as : List Arrival)
    (hstreams : s.Streams config chip base ciphertexts as)
    (hreliable : ∀ x ∈ s.exchanges config chip as, x.ChangesReliably) :
    let after := s.run config chip as
    let whole := ciphertexts.flatten
    (view.content after.flash).peek base.toNat whole.length =
        Chain.plaintext config.key s.engine.assembly.vector whole ∧
      (∀ x, x < base.toNat ∨ base.toNat + whole.length ≤ x →
        view.content after.flash x = view.content s.flash x) ∧
      (∀ last ∈ ciphertexts.getLast?,
        after.engine.assembly.vector.toList = last.drop (last.length - Block.size)) ∧
      ∀ single, s.Streams config chip base [whole] single →
        (∀ x ∈ s.exchanges config chip single, x.ChangesReliably) →
          view.content (s.run config chip single).flash = view.content after.flash ∧
            (s.run config chip single).engine.assembly.vector = after.engine.assembly.vector := by
  intro after whole
  obtain ⟨hcontent, hvector⟩ := hstreams.lays honest hpos hunit hfits hs hreliable
  have hblocks := hstreams.blocks
  have hplain := Chain.length_plaintext config.key s.engine.assembly.vector
    (Chain.length_flatten_whole fun c hc => (hblocks c hc).2)
  refine ⟨?_, fun x hx => ?_, fun last hlast => ?_, fun single hsingle hreliable' => ?_⟩
  · rw [hcontent, ← hplain]
    exact FlashContent.peek_lay
  · rw [hcontent]
    exact FlashContent.lay_outside (by rw [hplain]; exact hx)
  · rw [hvector]
    exact Chain.toList_nextVector_flatten hblocks hlast
  · obtain ⟨hcontent', hvector'⟩ := hsingle.lays honest hpos hunit hfits hs hreliable'
    rw [List.flatten_singleton] at hcontent' hvector'
    exact ⟨hcontent'.trans hcontent.symm, hvector'.trans hvector.symm⟩

end Snapshot

end FirmwareUpdate

/-! ### Two transfers in one unit -/

namespace FirmwareUpdate

namespace SmallDevice

/-- The small device with units of two blocks. -/
def wide : Snapshot 32 FlashMemory := ⟨{}, flash⟩

def wideChip : NorFlash FlashMemory := FlashMemory.chip 32

def thirdBlock : Arrival := command { command := .data, length := 16, address := 80 }

def thirdPart : Arrival :=
  data (PayloadPacket.encode { address := 80, payload := List.replicate 16 0 })

/-- `done` is rejected, since no digest was checked. -/
def interlude : List Arrival :=
  [done, command { command := .ping }, command { command := .reset }] ++ check

/-- The blocks of one unit in two transfers. -/
def twoTransfers : List Arrival :=
  secondBlock :: [secondPart] ++ interlude ++ (thirdBlock :: [thirdPart] ++ [] ++ [])

/-- The blocks of one unit in one transfer, whose packets are cut elsewhere. -/
def oneTransfer : List Arrival :=
  command { command := .data, length := 32, address := 64 } ::
    [data (PayloadPacket.encode { address := 64, payload := List.replicate 24 0 }),
      data (PayloadPacket.encode { address := 88, payload := List.replicate 8 0 })] ++ [] ++ []

/-- The device once the first half of the unit is programmed and what comes between is over. -/
def paused : Snapshot 32 FlashMemory :=
  wide.run config wideChip (secondBlock :: [secondPart] ++ interlude)

/-- What each packet was answered, what was awaited then, and whether flash failed. -/
theorem steps_twoTransfers :
    (wide.exchanges config wideChip twoTransfers).map
        (fun x => (x.answer.toBool, x.after.engine.session.activity, decide x.FlashFailed)) =
      [(true, .transfer 64 16, false), (true, .idle, false), (false, .idle, false),
          (true, .idle, false), (true, .idle, false), (true, .digest 32 4, false),
          (true, .idle, false)] ++
        [(true, .transfer 80 16, false), (true, .idle, false)] := by
  decide +kernel

theorem twoTransfers_kept : ∀ x ∈ wide.exchanges config wideChip twoTransfers, ¬x.FlashFailed := by
  have hkept : ∀ step ∈ (wide.exchanges config wideChip twoTransfers).map
      (fun x => (x.answer.toBool, x.after.engine.session.activity, decide x.FlashFailed)),
      step.2.2 = false := by
    rw [steps_twoTransfers]
    decide
  intro x hx
  exact of_decide_eq_false (hkept _ (List.mem_map_of_mem hx))

theorem interlude_neutral {s : Snapshot 32 FlashMemory}
    (hrefused : (s.exchange config wideChip done).answer.toBool = false) :
    ∀ x ∈ s.exchanges config wideChip interlude, x.Neutral := by
  simp only [interlude, check, List.cons_append, List.nil_append, Snapshot.exchanges,
    List.forall_mem_cons]
  refine ⟨fun haccepted => ?_, Snapshot.neutral_of_command (by decide),
    Snapshot.neutral_of_command (by decide), Snapshot.neutral_of_command (by decide),
    Snapshot.neutral_of_command (by simp [data, Packet.command?]), by simp⟩
  simp [haccepted, Except.toBool] at hrefused

theorem twoTransfers_stream :
    wide.Streams config wideChip 64 [List.replicate 16 0, List.replicate 16 0] twoTransfers := by
  have hsteps := steps_twoTransfers
  rw [twoTransfers, Snapshot.exchanges_append, List.map_append] at hsteps
  obtain ⟨hfront, hback⟩ := List.append_inj hsteps (by simp [interlude, check])
  simp only [interlude, check, List.cons_append, List.nil_append, Snapshot.exchanges, List.map_cons,
    List.cons.injEq, Prod.mk.injEq, Exchange.toBool_answer] at hfront
  change (paused.exchanges config wideChip [thirdBlock, thirdPart]).map _ = _ at hback
  simp only [Snapshot.exchanges, List.map_cons, List.cons.injEq, Prod.mk.injEq,
    Exchange.toBool_answer] at hback
  obtain ⟨⟨hbegun, hawaited, _⟩, ⟨_, hidle, _⟩, ⟨hrefused, _⟩, _⟩ := hfront
  obtain ⟨⟨hbegun', hawaited', _⟩, ⟨_, hidle', _⟩, _⟩ := hback
  have hbegins : (wide.exchange config wideChip secondBlock).Begins 64 16 :=
    Snapshot.begins_of_answer hbegun (by decide)
  have hcompletes : (wide.exchange config wideChip secondBlock).after.IdleOnceAfter config wideChip
      [secondPart] :=
    Snapshot.idleOnceAfter_singleton (by simp [hawaited]) hidle
  have hbegins' : (paused.exchange config wideChip thirdBlock).Begins 80 16 :=
    Snapshot.begins_of_answer hbegun' (by decide)
  have hcompletes' : (paused.exchange config wideChip thirdBlock).after.IdleOnceAfter config wideChip
      [thirdPart] :=
    Snapshot.idleOnceAfter_singleton (by simp [hawaited']) hidle'
  have hnext : (80 : UInt32).toNat = (64 : UInt32).toNat + (16 : UInt16).toNat := rfl
  have hend : (96 : UInt32).toNat = (80 : UInt32).toNat + (16 : UInt16).toNat := rfl
  refine .transfer hbegins rfl ?_ hcompletes (interlude_neutral hrefused) hnext
    (.transfer hbegins' rfl ?_ hcompletes' (by simp [Snapshot.exchanges]) hend .nil)
  · exact List.forall_mem_singleton.mpr (zeros_suit rfl (by decide) rfl)
  · exact List.forall_mem_singleton.mpr (zeros_suit rfl (by decide) rfl)

theorem oneTransfer_stream : wide.Streams config wideChip 64 [List.replicate 32 0] oneTransfer := by
  have hbegins : (wide.exchange config wideChip
      (command { command := .data, length := 32, address := 64 })).Begins 64 32 := by decide +kernel
  have hend : (96 : UInt32).toNat = (64 : UInt32).toNat + (32 : UInt16).toNat := rfl
  refine .transfer hbegins rfl ?_ (by decide +kernel) (by simp [Snapshot.exchanges]) hend .nil
  simp only [List.forall_mem_cons]
  refine ⟨zeros_suit rfl (by decide) rfl, zeros_suit rfl (by decide) rfl, by simp⟩

end SmallDevice

open SmallDevice in
theorem consecutive_transfers_decrypt_as_one_unit :
    wide.Streams SmallDevice.config wideChip 64 [List.replicate 16 0, List.replicate 16 0] twoTransfers ∧
      (FlashMemory.view.content (wide.run SmallDevice.config wideChip twoTransfers).flash).peek 64 32 =
        Chain.plaintext SmallDevice.config.key wide.engine.assembly.vector (List.replicate 32 0) ∧
      FlashMemory.view.content (wide.run SmallDevice.config wideChip oneTransfer).flash =
        FlashMemory.view.content (wide.run SmallDevice.config wideChip twoTransfers).flash := by
  have hone : ∀ x ∈ wide.exchanges SmallDevice.config wideChip oneTransfer, ¬x.FlashFailed := by
    decide +kernel
  have h := Snapshot.consecutive_transfers_decrypt_as_one SmallDevice.config wideChip FlashMemory.view
    (FlashMemory.chip_atomic 32).toHonest (by decide) (by decide) (by decide) wide
    ⟨_, [], flash_sound, rfl⟩ 64 _ twoTransfers twoTransfers_stream fun x hx _ => twoTransfers_kept x hx
  exact ⟨twoTransfers_stream, h.1, (h.2.2.2 oneTransfer oneTransfer_stream fun x hx _ => hone x hx).1⟩

end FirmwareUpdate
