import FirmwareUpdate.Proofs.Engine.Divergence
import FirmwareUpdate.Proofs.Engine.Effects
import FirmwareUpdate.Proofs.Engine.Transfer
import Mathlib.Data.List.Forall2

/-!
# Starting afresh

A restarted engine forgets everything but its chaining vector, its latch and that a reset was asked
for. So it is as good as a new one exactly if its vector is the one of a new engine, or is replaced
before payload programs a unit.
-/

namespace FirmwareUpdate

variable {page : Nat} {σ : Type} {config : Config} {chip : NorFlash σ}

/-- Whether the event is a call that reads flash. -/
def Event.Reads : Event → Prop
  | .flash (.read _ _) _ => True
  | _ => False

instance : (event : Event) → Decidable event.Reads
  | .flash (.read _ _) _ => inferInstanceAs (Decidable True)
  | .flash (.erase _ _) _ | .flash (.write _ _) _ | .progress _ | .connection _ | .report _ =>
    inferInstanceAs (Decidable False)

namespace Exchange

/-- What was done outside the engine, but for reading flash. -/
def effects (x : Exchange page σ) : List Event :=
  x.events.toList.filter fun event => ¬event.Reads

/-- Answer, effects and the session afterwards do not tell the exchanges apart. -/
structure LooksLike (x y : Exchange page σ) : Prop where
  answer : y.answer = x.answer
  effects : y.effects = x.effects
  session : y.after.engine.session = x.after.engine.session
  halted : y.after.engine.halted = x.after.engine.halted

/-- The chaining vector was replaced: by the one awaited, or because pending bytes were decrypted that
could not be programmed. -/
def RenewsVector (x : Exchange page σ) : Prop :=
  (x.answer = .ok () ∧ (∃ bytes, x.arrival.packet = .data bytes) ∧
      x.before.engine.session.activity = .chainVector) ∨
    (x.GivesUp ∧ ∃ e, x.answer = .error (.flash e))

/-- Payload programmed a unit, or an attempt at it failed. -/
def ProgramsPayload (x : Exchange page σ) : Prop := x.CarriesPayload ∧ x.Writes

/-- No payload programs a unit before the chaining vector is replaced. -/
def VectorRenewedFirst (xs : List (Exchange page σ)) : Prop :=
  ∀ earlier y later, xs = earlier ++ y :: later → y.ProgramsPayload → ∃ z ∈ earlier, z.RenewsVector

theorem vectorRenewedFirst_nil : VectorRenewedFirst ([] : List (Exchange page σ)) := by
  intro earlier y later h
  simp at h

theorem vectorRenewedFirst_cons {x : Exchange page σ} {xs : List (Exchange page σ)} :
    VectorRenewedFirst (x :: xs) ↔
      ¬x.ProgramsPayload ∧ (x.RenewsVector ∨ VectorRenewedFirst xs) := by
  constructor
  · intro h
    refine ⟨fun hprograms => ?_, ?_⟩
    · obtain ⟨z, hz, _⟩ := h [] x xs rfl hprograms
      simp at hz
    · by_cases hrenews : x.RenewsVector
      · exact Or.inl hrenews
      · refine Or.inr fun earlier y later hcut hprograms => ?_
        obtain ⟨z, hz, hrenewed⟩ := h (x :: earlier) y later (by rw [hcut]; rfl) hprograms
        rcases List.mem_cons.mp hz with rfl | hz
        · exact absurd hrenewed hrenews
        · exact ⟨z, hz, hrenewed⟩
  · rintro ⟨hfirst, hrest⟩ earlier y later hcut hprograms
    cases earlier with
    | nil =>
        obtain ⟨rfl, _⟩ := List.cons.inj hcut
        exact absurd hprograms hfirst
    | cons z earlier =>
        obtain ⟨rfl, htail⟩ := List.cons.inj hcut
        rcases hrest with hrenews | hrest
        · exact ⟨x, List.mem_cons_self, hrenews⟩
        · obtain ⟨z, hz, hrenewed⟩ := hrest earlier y later htail hprograms
          exact ⟨z, List.mem_cons_of_mem _ hz, hrenewed⟩

/-- The board once the packet was taken. -/
def board (x : Exchange page σ) : Board σ := ⟨x.after.flash, x.events⟩

end Exchange

/-- Boards that diverge did not do the same apart from reads. -/
theorem Exchange.effects_ne_of_diverge {x y : Exchange page σ} (h : Board.Diverge x.board y.board) :
    y.effects ≠ x.effects := by
  obtain ⟨before, start, bytes, bytes', failure, failure', hne, hleft, hright⟩ := h
  have heffects {z : Exchange page σ} {bytes : Bytes} {failure : Option FlashError}
      (hfront : before ++ [.flash (.write start bytes) failure] <+: z.board.events.toList) :
      before.filter (fun event => ¬event.Reads) ++ [.flash (.write start bytes) failure] <+:
        z.effects := by
    have hfiltered := hfront.filter fun event => ¬event.Reads
    rwa [List.filter_append] at hfiltered
  intro heq
  have hleft := heffects hleft
  have hright := heffects hright
  rw [heq] at hright
  have hsame := (List.prefix_of_prefix_length_le hleft hright (by simp)).eq_of_length (by simp)
  have hwrite := List.append_cancel_left hsame
  simp only [List.cons.injEq, Event.flash.injEq, FlashCall.write.injEq] at hwrite
  exact hne hwrite.1.1.2

namespace Snapshot

variable {s s' : Snapshot page σ} {a : Arrival} {as : List Arrival} {v w : Block}

/-- What a packet does side by side, read off the two exchanges. -/
theorem exchange_couples
    (Post : Except UpdateError Unit → Engine page × Board σ → Engine page × Board σ → Prop)
    {apart : Engine page × Board σ → Engine page × Board σ → Prop}
    (h : (Engine.receive config chip a.now a.packet).Couples
      (Engine.receive config chip a.now a.packet) (s.engine, { flash := s.flash })
        (s'.engine, { flash := s'.flash }) (fun _ => Post (.ok ())) (fun err => Post (.error err))
        apart) :
    ((s'.exchange config chip a).answer = (s.exchange config chip a).answer ∧
        Post (s.exchange config chip a).answer
          ((s.exchange config chip a).after.engine, (s.exchange config chip a).board)
          ((s'.exchange config chip a).after.engine, (s'.exchange config chip a).board)) ∨
      apart ((s.exchange config chip a).after.engine, (s.exchange config chip a).board)
        ((s'.exchange config chip a).after.engine, (s'.exchange config chip a).board) := by
  apply exchange_of_yields (Q := fun answer e board =>
    ((s'.exchange config chip a).answer = answer ∧ Post answer (e, board)
        ((s'.exchange config chip a).after.engine, (s'.exchange config chip a).board)) ∨
      apart (e, board)
        ((s'.exchange config chip a).after.engine, (s'.exchange config chip a).board))
  apply Attempt.Yields.mono h
  · intro _ t ht
    apply exchange_of_yields (Q := fun answer e board =>
      (answer = .ok () ∧ Post (.ok ()) t (e, board)) ∨ apart t (e, board))
    exact ht.mono (fun _ _ => Or.imp_left fun h => ⟨rfl, h.2⟩) fun _ _ => Or.inr
  · intro err t ht
    apply exchange_of_yields (Q := fun answer e board =>
      (answer = .error err ∧ Post (.error err) t (e, board)) ∨ apart t (e, board))
    exact ht.mono (fun _ _ => Or.inr) fun _ _ => Or.imp_left fun h => ⟨congrArg _ h.1, h.2⟩

/-- The snapshots differ in nothing but what their engines chain the next span after, and in whether
a reset was asked for. -/
def Chained (v w : Block) (s s' : Snapshot page σ) : Prop :=
  Engine.InStep (Assembly.Chained v w) (s.engine, { flash := s.flash })
    (s'.engine, { flash := s'.flash })

/-- Exchanges in step look alike, and leave snapshots that are in step. -/
theorem looksLike_of_inStep
    (hanswer : (s'.exchange config chip a).answer = (s.exchange config chip a).answer)
    (h : Engine.InStep (Assembly.Chained v w)
      ((s.exchange config chip a).after.engine, (s.exchange config chip a).board)
      ((s'.exchange config chip a).after.engine, (s'.exchange config chip a).board)) :
    (s.exchange config chip a).LooksLike (s'.exchange config chip a) ∧
      Chained v w (s.exchange config chip a).after (s'.exchange config chip a).after := by
  have hboard : (s'.exchange config chip a).board = (s.exchange config chip a).board := h.alike.board
  have hevents : (s'.exchange config chip a).events = (s.exchange config chip a).events :=
    congrArg Board.events hboard
  have hflash : (s'.exchange config chip a).after.flash = (s.exchange config chip a).after.flash :=
    congrArg Board.flash hboard
  constructor
  · exact ⟨hanswer, by rw [Exchange.effects, Exchange.effects, hevents], h.session, h.halted⟩
  · exact ⟨h.session, h.halted, h.alike.vector, h.alike.vector', h.alike.buffer, h.alike.pending,
      by rw [hflash]⟩

/-- A packet that is no payload is taken alike, and a vector that was awaited makes the snapshots the
same. -/
theorem exchange_couples_unless_payload (hunit : chip.eraseSize = page) (hs : s.engine.Consistent)
    (h : Chained v w s s') (hpayload : ¬(s.exchange config chip a).CarriesPayload) :
    (s.exchange config chip a).LooksLike (s'.exchange config chip a) ∧
      ((¬(s.exchange config chip a).RenewsVector ∧
          Chained v w (s.exchange config chip a).after (s'.exchange config chip a).after) ∨
        ((s.exchange config chip a).RenewsVector ∧
          ∃ u, Chained u u (s.exchange config chip a).after (s'.exchange config chip a).after)) := by
  let Seeds (answer : Except UpdateError Unit) : Prop :=
    answer = .ok () ∧ (∃ bytes, a.packet = .data bytes) ∧ s.engine.session.activity = .chainVector
  have hrenews : (s.exchange config chip a).RenewsVector ↔
      Seeds (s.exchange config chip a).answer := by
    rw [Exchange.RenewsVector, exchange_arrival, exchange_before]
    exact or_iff_left fun hgivesUp => hpayload hgivesUp.1.1
  have hcouples : (Engine.receive config chip a.now a.packet).Couples
      (Engine.receive config chip a.now a.packet) (s.engine, { flash := s.flash })
        (s'.engine, { flash := s'.flash })
        (fun _ st st' => (Seeds (.ok ()) ∧ Engine.InStep Eq st st') ∨
          (¬Seeds (.ok ()) ∧ Engine.InStep (Assembly.Chained v w) st st'))
        (fun _ => Engine.InStep (Assembly.Chained v w)) fun _ _ => False := by
    refine Engine.receive_couples (fun _ _ => False) hunit h.halted (fun _ => h) fun _ => ?_
    cases hpacket : a.packet with
    | control bytes =>
        have hcontrol : ¬Seeds (.ok ()) := by
          rintro ⟨_, ⟨_, hdata⟩, _⟩
          rw [hpacket] at hdata
          cases hdata
        exact (Engine.handle_control_couples Engine.parallel_chained h hs).mono
          (fun _ _ _ ht => Or.inr ⟨hcontrol, ht⟩) (fun err _ _ ht => ht.haltedBy err) fun _ _ => id
    | data bytes =>
        have hactivity (base length : UInt32) : s.engine.session.activity ≠ .transfer base length := by
          intro htransfer
          apply hpayload
          rw [Exchange.CarriesPayload, exchange_arrival, exchange_before]
          exact ⟨⟨bytes, hpacket⟩, base, length, htransfer⟩
        refine (Engine.consume_couples Engine.parallel_chained h hactivity).mono (fun _ _ _ ht => ?_)
          (fun err _ _ ht => ht.haltedBy err) fun _ _ => id
        exact ht.imp (And.imp_left fun hawaited => ⟨rfl, ⟨bytes, hpacket⟩, hawaited⟩)
          (And.imp_left fun hother hseeds => hother hseeds.2.2)
  have hexchange := exchange_couples (fun answer st st' =>
    (Seeds answer ∧ Engine.InStep Eq st st') ∨
      (¬Seeds answer ∧ Engine.InStep (Assembly.Chained v w) st st'))
    (hcouples.mono (fun _ _ _ => id) (fun err _ _ ht => Or.inr ⟨by simp [Seeds], ht⟩) fun _ _ => id)
  obtain ⟨hanswer, ⟨hseeds, heq⟩ | ⟨hseeds, hchained⟩⟩ := hexchange.resolve_right id
  · obtain ⟨hlooks, hafter⟩ := looksLike_of_inStep hanswer heq.chained
    exact ⟨hlooks, Or.inr ⟨hrenews.mpr hseeds, _, hafter⟩⟩
  · obtain ⟨hlooks, hafter⟩ := looksLike_of_inStep hanswer hchained
    exact ⟨hlooks, Or.inl ⟨fun hrenewed => hseeds (hrenews.mp hrenewed), hafter⟩⟩

/-- Payload is taken alike unless it programs a unit. Bytes that were decrypted and could not be
programmed leave the snapshots the same. -/
theorem exchange_couples_of_payload (hunit : chip.eraseSize = page) (hne : v ≠ w)
    (h : Chained v w s s') (hpayload : (s.exchange config chip a).CarriesPayload) :
    ((s.exchange config chip a).LooksLike (s'.exchange config chip a) ∧
        ¬(s.exchange config chip a).ProgramsPayload ∧
          ((¬(s.exchange config chip a).RenewsVector ∧
              Chained v w (s.exchange config chip a).after (s'.exchange config chip a).after) ∨
            ((s.exchange config chip a).RenewsVector ∧
              ∃ u, Chained u u (s.exchange config chip a).after (s'.exchange config chip a).after))) ∨
      (¬(s.exchange config chip a).LooksLike (s'.exchange config chip a) ∧
        (s.exchange config chip a).ProgramsPayload) := by
  obtain ⟨⟨bytes, hpacket⟩, base, length, hactivity⟩ := id hpayload
  rw [exchange_arrival] at hpacket
  rw [exchange_before] at hactivity
  have hquiet : Board.Quiet ({ flash := s.flash } : Board σ) :=
    ⟨fun _ _ _ h => by simp at h, fun ⟨_, _, _, h⟩ => by simp at h⟩
  have hst : Engine.InStep (Assembly.Unprogrammed v w) (s.engine, { flash := s.flash })
      (s'.engine, { flash := s'.flash }) :=
    ⟨h.session, h.halted, h.alike, hquiet⟩
  have hrenews : (s.exchange config chip a).RenewsVector ↔
      (∃ e, (s.exchange config chip a).answer = .error (.flash e)) ∧
        ¬(s.exchange config chip a).board.ReadFailed := by
    rw [Exchange.RenewsVector, exchange_before, hactivity]
    constructor
    · rintro (⟨_, _, hvector⟩ | ⟨hgivesUp, hflash⟩)
      · cases hvector
      · exact ⟨hflash, hgivesUp.2.2⟩
    · rintro ⟨⟨e, hflash⟩, hreads⟩
      exact Or.inr ⟨⟨hpayload, ⟨_, hflash, trivial⟩, hreads⟩, e, hflash⟩
  have hwrites (hnever : (s.exchange config chip a).board.NeverWrites) :
      ¬(s.exchange config chip a).ProgramsPayload :=
    fun ⟨_, start, bytes, failure, hmem⟩ => hnever start bytes failure hmem
  have hcouples : (Engine.receive config chip a.now a.packet).Couples
      (Engine.receive config chip a.now a.packet) (s.engine, { flash := s.flash })
        (s'.engine, { flash := s'.flash }) (fun _ => Engine.InStep (Assembly.Unprogrammed v w))
        (fun err => Engine.InStep (Assembly.Unharmed v w err))
        fun st st' => Board.Diverge st.2 st'.2 := by
    rw [hpacket]
    exact Engine.receive_payload_couples (Engine.pairs_unprogrammed hne) hunit hst hactivity
  have hexchange := exchange_couples (fun answer => match answer with
    | .ok _ => Engine.InStep (Assembly.Unprogrammed v w)
    | .error err => Engine.InStep (Assembly.Unharmed v w err)) hcouples
  rcases hexchange with ⟨hanswer, hpost⟩ | hdiverge
  · left
    cases hcase : (s.exchange config chip a).answer with
    | ok =>
        rw [hcase] at hpost
        have hchained : Engine.InStep (Assembly.Chained v w) _ _ :=
          ⟨hpost.session, hpost.halted, hpost.alike.toChained⟩
        obtain ⟨hlooks, hafter⟩ := looksLike_of_inStep hanswer hchained
        refine ⟨hlooks, hwrites hpost.alike.quiet.writes, Or.inl ⟨fun hrenewed => ?_, hafter⟩⟩
        obtain ⟨⟨e, hflash⟩, _⟩ := hrenews.mp hrenewed
        rw [hcase] at hflash
        cases hflash
    | error err =>
        rw [hcase] at hpost
        rcases hpost.alike with ⟨hchained, hnever, hreads⟩ | ⟨heq, hquiet, e, rfl⟩
        · obtain ⟨hlooks, hafter⟩ :=
            looksLike_of_inStep hanswer ⟨hpost.session, hpost.halted, hchained⟩
          refine ⟨hlooks, hwrites hnever, Or.inl ⟨fun hrenewed => ?_, hafter⟩⟩
          obtain ⟨⟨e, hflash⟩, hkept⟩ := hrenews.mp hrenewed
          rw [hcase] at hflash
          exact hkept (hreads ⟨e, Except.error.inj hflash⟩)
        · have hsame : Engine.InStep Eq _ _ := ⟨hpost.session, hpost.halted, heq⟩
          obtain ⟨hlooks, hafter⟩ := looksLike_of_inStep hanswer hsame.chained
          exact ⟨hlooks, hwrites hquiet.writes,
            Or.inr ⟨hrenews.mpr ⟨⟨e, hcase⟩, hquiet.reads⟩, _, hafter⟩⟩
  · right
    refine ⟨fun hlooks => Exchange.effects_ne_of_diverge hdiverge hlooks.effects, hpayload, ?_⟩
    have hwrote := Board.not_neverWrites_of_diverge hdiverge
    simp only [Board.NeverWrites, not_forall, not_not] at hwrote
    exact hwrote

/-- Snapshots that are the same take every packet alike. -/
theorem exchange_couples_self (hunit : chip.eraseSize = page) (hs : s.engine.Consistent)
    (h : Chained v v s s') :
    (s.exchange config chip a).LooksLike (s'.exchange config chip a) ∧
      ∃ u, Chained u u (s.exchange config chip a).after (s'.exchange config chip a).after := by
  by_cases hpayload : (s.exchange config chip a).CarriesPayload
  · obtain ⟨⟨bytes, hpacket⟩, base, length, hactivity⟩ := hpayload
    rw [exchange_arrival] at hpacket
    rw [exchange_before] at hactivity
    have hst : Engine.InStep Eq (s.engine, { flash := s.flash }) (s'.engine, { flash := s'.flash }) :=
      ⟨h.session, h.halted, h.alike.eq⟩
    have hcouples : (Engine.receive config chip a.now a.packet).Couples
        (Engine.receive config chip a.now a.packet) (s.engine, { flash := s.flash })
          (s'.engine, { flash := s'.flash }) (fun _ => Engine.InStep Eq)
          (fun _ => Engine.InStep Eq) fun _ _ => False := by
      rw [hpacket]
      exact Engine.receive_payload_couples Engine.pairs_eq hunit hst hactivity
    obtain ⟨hanswer, hsame⟩ :=
      (exchange_couples (fun _ => Engine.InStep Eq) hcouples).resolve_right id
    obtain ⟨hlooks, hafter⟩ := looksLike_of_inStep hanswer hsame.chained
    exact ⟨hlooks, _, hafter⟩
  · obtain ⟨hlooks, ⟨_, hafter⟩ | ⟨_, hafter⟩⟩ :=
      exchange_couples_unless_payload hunit hs h hpayload
    · exact ⟨hlooks, v, hafter⟩
    · exact ⟨hlooks, hafter⟩

theorem Chained.flash (h : Chained v w s s') : s'.flash = s.flash := congrArg Board.flash h.alike.board

/-- All packets look alike, and so does flash after the last of them. -/
def RunsAlike (config : Config) (chip : NorFlash σ) (s s' : Snapshot page σ) (as : List Arrival) :
    Prop :=
  List.Forall₂ Exchange.LooksLike (s.exchanges config chip as) (s'.exchanges config chip as) ∧
    (s'.run config chip as).flash = (s.run config chip as).flash

theorem runsAlike_cons :
    RunsAlike config chip s s' (a :: as) ↔
      (s.exchange config chip a).LooksLike (s'.exchange config chip a) ∧
        RunsAlike config chip (s.exchange config chip a).after (s'.exchange config chip a).after as := by
  rw [RunsAlike, exchanges, exchanges, List.forall₂_cons, and_assoc]
  rfl

/-- Snapshots that are the same run alike. -/
theorem runsAlike_self (hunit : chip.eraseSize = page) (hs : s.engine.Consistent)
    (h : Chained v v s s') : RunsAlike config chip s s' as := by
  induction as generalizing s s' v with
  | nil => exact ⟨List.Forall₂.nil, h.flash⟩
  | cons a as ih =>
      obtain ⟨hlooks, u, hafter⟩ := exchange_couples_self hunit hs h
      exact runsAlike_cons.mpr ⟨hlooks, ih (exchange_consistent hs) hafter⟩

/-- Snapshots with different vectors run alike exactly if the vector is replaced before payload programs
a unit. -/
theorem runsAlike_iff (hunit : chip.eraseSize = page) (hs : s.engine.Consistent) (hne : v ≠ w)
    (h : Chained v w s s') :
    RunsAlike config chip s s' as ↔ Exchange.VectorRenewedFirst (s.exchanges config chip as) := by
  induction as generalizing s s' with
  | nil => exact iff_of_true ⟨List.Forall₂.nil, h.flash⟩ Exchange.vectorRenewedFirst_nil
  | cons a as ih =>
      have hs' : (s.exchange config chip a).after.engine.Consistent := exchange_consistent hs
      rw [runsAlike_cons, exchanges, Exchange.vectorRenewedFirst_cons]
      have hgoes (hlooks : (s.exchange config chip a).LooksLike (s'.exchange config chip a))
          (hprograms : ¬(s.exchange config chip a).ProgramsPayload)
          (hafter : (¬(s.exchange config chip a).RenewsVector ∧
              Chained v w (s.exchange config chip a).after (s'.exchange config chip a).after) ∨
            ((s.exchange config chip a).RenewsVector ∧
              ∃ u, Chained u u (s.exchange config chip a).after (s'.exchange config chip a).after)) :
          (s.exchange config chip a).LooksLike (s'.exchange config chip a) ∧
              RunsAlike config chip (s.exchange config chip a).after
                (s'.exchange config chip a).after as ↔
            ¬(s.exchange config chip a).ProgramsPayload ∧
              ((s.exchange config chip a).RenewsVector ∨
                Exchange.VectorRenewedFirst
                  ((s.exchange config chip a).after.exchanges config chip as)) := by
        rcases hafter with ⟨hkept, hchained⟩ | ⟨hrenewed, u, hsame⟩
        · rw [ih hs' hchained]
          exact and_congr (iff_of_true hlooks hprograms) (or_iff_right hkept).symm
        · exact iff_of_true ⟨hlooks, runsAlike_self hunit hs' hsame⟩ ⟨hprograms, Or.inl hrenewed⟩
      by_cases hpayload : (s.exchange config chip a).CarriesPayload
      · rcases exchange_couples_of_payload hunit hne h hpayload with
          ⟨hlooks, hprograms, hafter⟩ | ⟨hdiffers, hprograms⟩
        · exact hgoes hlooks hprograms hafter
        · exact iff_of_false (fun hlooks => hdiffers hlooks.1) fun hfirst => hfirst.1 hprograms
      · obtain ⟨hlooks, hafter⟩ := exchange_couples_unless_payload hunit hs h hpayload
        exact hgoes hlooks (fun hprograms => hpayload hprograms.1) hafter

/-- What comes of a `restart`. -/
theorem exchange_restart (hhalted : ¬s.engine.halted) (hunit : chip.eraseSize = page)
    (hrestart : (s.exchange config chip a).Asks .restart) :
    (s.exchange config chip a).answer = .ok () ∧
      (s.exchange config chip a).board =
        { flash := s.flash, events := #[.connection config.connection] } ∧
        (s.exchange config chip a).after.engine =
          { s.engine with session := {}, assembly := s.engine.assembly.discard } := by
  obtain ⟨p, hp, hcommand⟩ := hrestart
  rw [exchange_arrival] at hp
  apply exchange_of_yields (Q := fun answer e board => answer = .ok () ∧
    board = { flash := s.flash, events := #[.connection config.connection] } ∧
      e = { s.engine with session := {}, assembly := s.engine.assembly.discard })
  refine Engine.yields_receive.mpr
    ⟨fun h => absurd h hhalted, fun _ hne => absurd hunit hne, fun _ _ => ?_⟩
  rw [Engine.handle_of_command hp, Engine.execute, hcommand, Engine.yields_restart]
  exact ⟨rfl, rfl, rfl⟩

/-- A `restart` is as good as a new engine on the same flash: from then on all packets look alike. -/
def RestartsAfresh (config : Config) (chip : NorFlash σ) (s : Snapshot page σ) (restart : Arrival)
    (as : List Arrival) : Prop :=
  RunsAlike config chip s { flash := s.flash } (restart :: as)

/-- A restarted engine is as good as a new one exactly if its chaining vector was zero, or is replaced
before payload programs a unit. -/
theorem restartsAfresh_iff (hhalted : ¬s.engine.halted) (hunit : chip.eraseSize = page)
    (hrestart : (s.exchange config chip a).Asks .restart) :
    s.RestartsAfresh config chip a as ↔
      s.engine.assembly.vector = Block.zero ∨
        Exchange.VectorRenewedFirst ((s.exchange config chip a).after.exchanges config chip as) := by
  let fresh : Snapshot page σ := { flash := s.flash }
  have hfresh : (fresh.exchange config chip a).Asks .restart := by
    rw [Exchange.Asks, exchange_arrival] at hrestart ⊢
    exact hrestart
  obtain ⟨hanswer, hboard, hafter⟩ := exchange_restart hhalted hunit hrestart
  obtain ⟨hanswer', hboard', hafter'⟩ := exchange_restart (by simp [fresh]) hunit hfresh
  have hs : (s.exchange config chip a).after.engine.Consistent := by
    rw [hafter]
    exact Engine.consistent_of_nothingPending (Assembly.nothingPending_discard _) (by simp)
  have hinStep : Engine.InStep (Assembly.Chained s.engine.assembly.vector Block.zero)
      ((s.exchange config chip a).after.engine, (s.exchange config chip a).board)
      ((fresh.exchange config chip a).after.engine, (fresh.exchange config chip a).board) := by
    rw [hboard, hboard', hafter, hafter']
    exact ⟨rfl, by simpa [fresh] using hhalted, rfl, rfl, rfl, rfl, rfl⟩
  obtain ⟨hlooks, hchained⟩ := looksLike_of_inStep (hanswer'.trans hanswer.symm) hinStep
  rw [RestartsAfresh, runsAlike_cons]
  by_cases hzero : s.engine.assembly.vector = Block.zero
  · rw [hzero] at hchained
    exact iff_of_true ⟨hlooks, runsAlike_self hunit hs hchained⟩ (Or.inl hzero)
  · rw [runsAlike_iff hunit hs hzero hchained, or_iff_right hzero]
    exact and_iff_right hlooks

end Snapshot

end FirmwareUpdate

namespace FirmwareUpdate

namespace SmallDevice

/-- A chaining vector is announced and sent. -/
def seed (vector : Block) : List Arrival :=
  [command { command := .vector, length := 16 }, data vector.toList]

/-- The small device once it chains after a vector of ones. -/
def seeded : Snapshot 16 FlashMemory := run (seed (Vector.replicate 16 1))

def restart : Arrival := command { command := .restart }

/-- A transfer of a block of zeros. -/
def oneBlock : List Arrival :=
  [transfer, data (PayloadPacket.encode { address := 48, payload := List.replicate 16 0 })]

theorem asks_restart : (seeded.exchange config chip restart).Asks .restart := by
  rw [Exchange.Asks, Snapshot.exchange_arrival]
  exact ⟨{ command := .restart }, by decide, rfl⟩

/-- A restart after which the vector is sent again, and what follows is chained after that. -/
theorem vectorRenewedFirst_seed :
    Exchange.VectorRenewedFirst ((seeded.exchange config chip restart).after.exchanges config chip
      (seed Block.zero ++ oneBlock)) := by
  have hawaited : (((seeded.exchange config chip restart).after.exchange config chip
      (command { command := .vector, length := 16 })).after.engine.session.activity =
        .chainVector) := by
    decide +kernel
  refine Exchange.vectorRenewedFirst_cons.mpr
    ⟨?_, Or.inr (Exchange.vectorRenewedFirst_cons.mpr ⟨?_, Or.inl (Or.inl ⟨?_, ?_, ?_⟩)⟩)⟩
  · rintro ⟨⟨⟨bytes, hpacket⟩, _⟩, _⟩
    rw [Snapshot.exchange_arrival] at hpacket
    cases hpacket
  · rintro ⟨⟨_, base, length, htransfer⟩, _⟩
    rw [Snapshot.exchange_before, hawaited] at htransfer
    cases htransfer
  · decide +kernel
  · rw [Snapshot.exchange_arrival]
    exact ⟨_, rfl⟩
  · rw [Snapshot.exchange_before]
    exact hawaited

end SmallDevice

open SmallDevice in
theorem restartsAfresh_seed :
    ¬seeded.engine.halted ∧
      (seeded.exchange SmallDevice.config SmallDevice.chip restart).Asks .restart ∧
      seeded.RestartsAfresh SmallDevice.config SmallDevice.chip restart (seed Block.zero ++ oneBlock) := by
  have hhalted : ¬seeded.engine.halted := by decide +kernel
  exact ⟨hhalted, asks_restart, (Snapshot.restartsAfresh_iff hhalted rfl asks_restart).mpr
    (Or.inr vectorRenewedFirst_seed)⟩

open SmallDevice in
/-- The vector of ones is still in force after the restart, and a block of zeros is decrypted with it. -/
theorem restart_keeps_vector :
    ¬seeded.engine.halted ∧
      (seeded.exchange SmallDevice.config SmallDevice.chip restart).Asks .restart ∧
      ¬seeded.RestartsAfresh SmallDevice.config SmallDevice.chip restart oneBlock := by
  refine ⟨by decide +kernel, asks_restart, ?_⟩
  rintro ⟨_, hflash⟩
  have hbytes := congrArg (fun m : FlashMemory => m.peek 48 1) hflash
  revert hbytes
  decide +kernel

end FirmwareUpdate
