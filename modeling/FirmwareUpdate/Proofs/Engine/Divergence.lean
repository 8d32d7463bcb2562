import FirmwareUpdate.Proofs.Engine.Chained
import FirmwareUpdate.Proofs.Mirror
import FirmwareUpdate.Proofs.Stream

/-!
# What the vector decides

Spans chained after different vectors decrypt to different bytes. So payload does the same on engines
that differ in their vectors until a unit is programmed, and from then on it has done something else.
-/

namespace FirmwareUpdate

variable {page : Nat} {σ : Type} {config : Config} {chip : NorFlash σ} {now : UInt64}

theorem Block.xor_right_cancel {x v w : Block} (h : xor x v = xor x w) : v = w := by
  apply Vector.ext
  intro i hi
  have hbyte : (xor x v)[i] = (xor x w)[i] := by rw [h]
  simpa only [xor, Vector.getElem_zipWith, UInt8.xor_right_inj] using hbyte

namespace Chain

variable {key : Aes256.Key} {v w : Block} {span : Bytes}

theorem blocks_ne_nil (hpos : span.length ≠ 0) (hwhole : span.length % Block.size = 0) :
    blocks span ≠ [] := by
  intro hnil
  have hcount : (blocks span).length = 0 := by rw [hnil, List.length_nil]
  rw [blocks, Block.length_split] at hcount
  simp only [Block.size] at hcount hwhole
  omega

/-- The first block of a span shows what the span is chained after. -/
theorem plaintext_injective (hpos : span.length ≠ 0) (hwhole : span.length % Block.size = 0)
    (h : plaintext key v span = plaintext key w span) : v = w := by
  obtain ⟨c, cs, hblocks⟩ := List.exists_cons_of_ne_nil (blocks_ne_nil hpos hwhole)
  simp only [plaintext, hblocks, decryptBlocks, Block.join, List.flatMap_cons] at h
  obtain ⟨hfirst, _⟩ := List.append_inj h (by simp only [Vector.length_toList])
  exact Block.xor_right_cancel (Vector.toList_inj.mp hfirst)

theorem nextVector_eq (hpos : span.length ≠ 0) (hwhole : span.length % Block.size = 0) :
    nextVector v span = nextVector w span := by
  obtain ⟨c, cs, hblocks⟩ := List.exists_cons_of_ne_nil (blocks_ne_nil hpos hwhole)
  rw [nextVector, nextVector, hblocks, List.getLastD_cons, List.getLastD_cons]

end Chain

namespace UnitBuffer

/-- A settled unit shows the bytes that its span was settled with. -/
theorem settle_injective {u : UnitBuffer page} {s : Span} {bytes bytes' : Bytes}
    (hlength : bytes.length = (u.spanBytes s).length)
    (hlength' : bytes'.length = (u.spanBytes s).length)
    (h : (u.settle s bytes).bytes = (u.settle s bytes').bytes) : bytes = bytes' := by
  have hspan := u.length_spanBytes s
  apply List.ext_getElem (hlength.trans hlength'.symm)
  intro i hi hi'
  have hin : s.start + i < page := by omega
  have hbyte : (u.settle s bytes).bytes[s.start + i] = (u.settle s bytes').bytes[s.start + i] := by
    rw [h]
  simpa [settle, Bytes.overlay_getElem, hi, hi'] using hbyte

end UnitBuffer

namespace Board

open Attempt

variable {board board' : Board σ}

/-- After the same events one board has programmed other bytes than the other one. -/
def Diverge (board board' : Board σ) : Prop :=
  ∃ before start bytes bytes' failure failure', bytes ≠ bytes' ∧
    before ++ [.flash (.write start bytes) failure] <+: board.events.toList ∧
      before ++ [.flash (.write start bytes') failure'] <+: board'.events.toList

/-- No bytes were programmed, nor was it tried. -/
def NeverWrites (board : Board σ) : Prop :=
  ∀ start bytes failure, .flash (.write start bytes) failure ∉ board.events

/-- What holds of longer and longer records is preserved by all calls. -/
theorem keptByCalls_of_push {P : Board σ → Prop}
    (h : ∀ board event flash, P board → P ⟨flash, board.events.push event⟩) : KeptByCalls chip P where
  read _ _ _ hP := yields_call (fun _ _ _ => h _ _ _ hP) fun _ _ _ => h _ _ _ hP
  emit _ _ _ hP := h _ _ _ hP
  erase _ _ _ hP := yields_call (fun _ _ _ => h _ _ _ hP) fun _ _ _ => h _ _ _ hP
  write _ _ _ hP := yields_call (fun _ _ _ => h _ _ _ hP) fun _ _ _ => h _ _ _ hP

theorem keptByCalls_diverge (board : Board σ) :
    KeptByCalls chip (Diverge board) ∧ KeptByCalls chip (Diverge · board) := by
  constructor
  · apply keptByCalls_of_push
    rintro _ event flash ⟨before, start, bytes, bytes', failure, failure', hne, hleft, hright⟩
    refine ⟨before, start, bytes, bytes', failure, failure', hne, hleft, hright.trans ?_⟩
    rw [Array.toList_push]
    exact List.prefix_append _ _
  · apply keptByCalls_of_push
    rintro _ event flash ⟨before, start, bytes, bytes', failure, failure', hne, hleft, hright⟩
    refine ⟨before, start, bytes, bytes', failure, failure', hne, hleft.trans ?_, hright⟩
    rw [Array.toList_push]
    exact List.prefix_append _ _

theorem neverWrites_push (h : board.NeverWrites) {event : Event}
    (hevent : ∀ start bytes failure, event ≠ .flash (.write start bytes) failure) {flash : σ} :
    NeverWrites ⟨flash, board.events.push event⟩ := by
  intro start bytes failure hmem
  rcases Array.mem_push.mp hmem with hmem | heq
  · exact h start bytes failure hmem
  · exact hevent start bytes failure heq.symm

theorem not_neverWrites_of_diverge (h : Diverge board board') : ¬board.NeverWrites := by
  obtain ⟨before, start, bytes, _, failure, _, _, hleft, _⟩ := h
  intro hnever
  apply hnever start bytes failure
  rw [← Array.mem_toList_iff]
  exact hleft.subset (by simp)

/-- Flash was read without failures, and not programmed. -/
structure Quiet (board : Board σ) : Prop where
  writes : board.NeverWrites
  reads : ¬board.ReadFailed

theorem Quiet.push (h : board.Quiet) {event : Event}
    (hread : ∀ address length e, event ≠ .flash (.read address length) (some e))
    (hwrite : ∀ start bytes failure, event ≠ .flash (.write start bytes) failure) {flash : σ} :
    Quiet ⟨flash, board.events.push event⟩ :=
  ⟨neverWrites_push h.writes hwrite, not_readFailed_push h.reads hread⟩

/-- Writing different bytes to the same board makes the boards diverge. -/
theorem write_couples {start : UInt32} {bytes bytes' : Bytes} (hne : bytes ≠ bytes')
    {post : Unit → Board σ → Board σ → Prop} {refused : UpdateError → Board σ → Board σ → Prop} :
    (write chip start bytes).Couples (write chip start bytes') board board post refused Diverge := by
  have hdiverge (flash flash' : σ) (failure failure' : Option FlashError) :
      Diverge ⟨flash, board.events.push (.flash (.write start bytes) failure)⟩
        ⟨flash', board.events.push (.flash (.write start bytes') failure')⟩ := by
    have hlast (event : Event) :
        board.events.toList ++ [event] <+: (board.events.push event).toList := by simp
    exact ⟨board.events.toList, start, bytes, bytes', failure, failure', hne, hlast _, hlast _⟩
  refine yields_call (fun _ flash _ => ?_) fun e flash _ => ?_
  · exact yields_call (fun _ _ _ => Or.inr (hdiverge _ _ _ _)) fun _ _ _ => hdiverge _ _ _ _
  · exact yields_call (fun _ _ _ => hdiverge _ _ _ _) fun _ _ _ => Or.inr (hdiverge _ _ _ _)

end Board

namespace Assembly

open Attempt

variable {key : Aes256.Key} {a a' : Assembly page} {board : Board σ} {v w : Block}

/-- Taken in step: nothing was programmed yet, and every unit could be read. -/
structure Unprogrammed (v w : Block) (t t' : Assembly page × Board σ) : Prop extends
    Chained v w t t' where
  quiet : t.2.Quiet

/-- Refused in step. The vectors are what they were, unless pending bytes were decrypted that could not
be programmed: then they are the same. -/
def Unharmed (v w : Block) (err : UpdateError) (t t' : Assembly page × Board σ) : Prop :=
  (Chained v w t t' ∧ t.2.NeverWrites ∧ ((∃ e, err = .flash e) → t.2.ReadFailed)) ∨
    (t = t' ∧ t.2.Quiet ∧ ∃ e, err = .flash e)

theorem reprogram_couples {u u' : UnitBuffer page} (hbase : u'.base = u.base)
    (hbytes : u.bytes ≠ u'.bytes) (hquiet : board.Quiet) {stop : UInt32}
    {post : Unit → Board σ → Board σ → Prop} :
    (reprogram chip u stop).Couples (reprogram chip u' stop) board board post
      (fun err b b' => b = b' ∧ b.Quiet ∧ ∃ e, err = .flash e) Board.Diverge := by
  have hwrite (bytes : Bytes) : (Board.write chip u.base bytes).KeepsApart Board.Diverge := fun b =>
    ⟨(Board.keptByCalls_diverge b).1.write _ _, (Board.keptByCalls_diverge b).2.write _ _⟩
  rw [reprogram, reprogram, hbase]
  refine Couples.bind (M := fun _ => Eq) (couples_self ?_) ?_ (fun _ => hwrite _) fun _ => hwrite _
  · exact Board.yields_call (fun _ _ _ => rfl) fun e _ _ =>
      ⟨rfl, hquiet.push (by simp) (by simp), e, rfl⟩
  · rintro _ b _ rfl
    exact Board.write_couples fun heq => hbytes (Vector.toList_inj.mp heq)

/-- Units with different bytes are not programmed alike. -/
theorem program_couples {u u' : UnitBuffer page} (hbase : u'.base = u.base)
    (hbytes : u.bytes ≠ u'.bytes) (hvector : a'.vector = a.vector)
    (hpending : a'.pending = a.pending) (hquiet : board.Quiet)
    {post : Unit → Assembly page × Board σ → Assembly page × Board σ → Prop} :
    (program chip u).Couples (program chip u') (a, board) (a', board) post (Unharmed v w)
      fun t t' => Board.Diverge t.2 t'.2 := by
  have hrelease : a.release = a'.release := by rw [release, release, hvector, hpending]
  rw [Couples, yields_program]
  cases hadd : Address.add? u.base (UInt32.ofNat page) with
  | none =>
      rw [yields_program, hbase, hadd]
      exact Or.inl ⟨rfl, Or.inr ⟨by rw [hrelease], hquiet, _, rfl⟩⟩
  | some stop =>
      have hcouples : (reprogram chip u stop).Couples (reprogram chip u' stop) board board
          (fun _ _ _ => False) (fun err b b' => b = b' ∧ b.Quiet ∧ ∃ e, err = .flash e)
            Board.Diverge :=
        reprogram_couples hbase hbytes hquiet
      refine Yields.mono hcouples (fun _ b hb => ?_) fun err b hb => ?_
      · rw [yields_program, hbase, hadd]
        exact hb.mono (fun _ _ ht => Or.inr (ht.resolve_left fun h => h.2)) fun _ _ ht => ht
      · rw [yields_program, hbase, hadd]
        refine hb.mono (fun _ _ ht => ht) fun err' b' ht => ht.imp_left ?_
        rintro ⟨rfl, rfl, hkept, hflash⟩
        exact ⟨rfl, Or.inr ⟨by rw [hrelease], hkept, hflash⟩⟩

/-- Pending bytes that can be decrypted and programmed make the boards diverge. -/
theorem commit_couples (hne : v ≠ w) (h : Unprogrammed v w (a, board) (a', board)) :
    (commit key chip).Couples (commit key chip) (a, board) (a', board) (fun _ => Unprogrammed v w)
      (Unharmed v w) fun t t' => Board.Diverge t.2 t'.2 := by
  have hbuffer : a'.buffer = a.buffer := h.buffer
  have hpending : a'.pending = a.pending := h.pending
  rcases a.nothingToCommit_or_pending with hnothing | ⟨u, s, hu, hs⟩
  · have hnothing' : a'.NothingToCommit := hnothing.imp hbuffer.trans hpending.trans
    rw [Couples, yields_commit_nothing hnothing, yields_commit_nothing hnothing']
    exact Or.inl ⟨rfl, ⟨h.vector, h.vector', hbuffer, rfl, h.board⟩, h.quiet⟩
  · have hu' : a'.buffer = some u := hbuffer.trans hu
    have hs' : a'.pending = some s := hpending.trans hs
    rw [Couples, yields_commit_pending hu hs]
    generalize hspan : u.spanBytes s = span at *
    by_cases hblocks : span.length = 0 ∨ span.length % Block.size ≠ 0
    · rw [Chain.decrypt?, if_pos hblocks, yields_commit_pending hu' hs', hspan, Chain.decrypt?,
        if_pos hblocks]
      refine Or.inl ⟨rfl, Or.inl ⟨⟨h.vector, h.vector', rfl, rfl, rfl⟩, h.quiet.writes, ?_⟩⟩
      rintro ⟨e, heq⟩
      cases heq
    · obtain ⟨hpos, hwhole⟩ := not_or.mp hblocks
      rw [Decidable.not_not] at hwhole
      have hbytes : (u.settle s (Chain.plaintext key a.vector span)).bytes ≠
          (u.settle s (Chain.plaintext key a'.vector span)).bytes := by
        intro heq
        have hplain := UnitBuffer.settle_injective
          (by rw [hspan, Chain.length_plaintext key _ hwhole])
          (by rw [hspan, Chain.length_plaintext key _ hwhole]) heq
        have hsame := Chain.plaintext_injective hpos hwhole hplain
        exact hne (h.vector.symm.trans (hsame.trans h.vector'))
      have hprogram : (program chip (u.settle s (Chain.plaintext key a.vector span))).Couples
          (program chip (u.settle s (Chain.plaintext key a'.vector span)))
          ({ a.settled with vector := Chain.nextVector a.vector span }, board)
          ({ a'.settled with vector := Chain.nextVector a'.vector span }, board)
          (fun _ => Unprogrammed v w) (Unharmed v w) fun t t' => Board.Diverge t.2 t'.2 := by
        apply program_couples
        · rfl
        · exact hbytes
        · exact Chain.nextVector_eq hpos hwhole
        · rfl
        · exact h.quiet
      rw [Chain.decrypt?, if_neg hblocks]
      refine Yields.mono hprogram (fun _ t ht => ?_) fun err t ht => ?_
      · rw [yields_commit_pending hu' hs', hspan, Chain.decrypt?, if_neg hblocks]
        exact ht
      · rw [yields_commit_pending hu' hs', hspan, Chain.decrypt?, if_neg hblocks]
        exact ht

theorem load_couples_unprogrammed (h : Unprogrammed v w (a, board) (a', board)) {base : UInt32} :
    (load chip base).Couples (load chip base) (a, board) (a', board) (fun _ => Unprogrammed v w)
      (Unharmed v w) fun t t' => Board.Diverge t.2 t'.2 := by
  have hquiet : board.Quiet := h.quiet
  apply load_couples
  apply Board.yields_call
  · intro bytes _ _
    exact ⟨⟨h.vector, h.vector', rfl, h.pending, rfl⟩, hquiet.push (by simp) (by simp)⟩
  · intro e flash _
    have hfailed : Board.ReadFailed
        (⟨flash, board.events.push (.flash (.read base page) (some e))⟩ : Board σ) :=
      ⟨base, page, e, Array.mem_push_self⟩
    exact Or.inl ⟨⟨h.vector, h.vector', rfl, h.pending, rfl⟩,
      Board.neverWrites_push hquiet.writes (by simp), fun _ => hfailed⟩

theorem insert_couples (h : Unprogrammed v w (a, board) (a', board)) {address : UInt32}
    {bytes : Bytes} :
    (insert address bytes).Couples (insert address bytes) (a, board) (a', board)
      (fun _ => Unprogrammed v w) (Unharmed v w) fun t t' => Board.Diverge t.2 t'.2 := by
  have hbuffer : a'.buffer = a.buffer := h.buffer
  have hrefused : Unharmed v w .noTransfer (a, board) (a', board) :=
    Or.inl ⟨h.toChained, h.quiet.writes, by rintro ⟨_, heq⟩; cases heq⟩
  simp only [Couples, Yields, EStateM.run, insert, hbuffer]
  cases hu : a.buffer with
  | none => exact Or.inl ⟨rfl, hrefused⟩
  | some u =>
      by_cases hcontains : u.Contains address
      · simp only [hcontains, if_true]
        refine Or.inl ⟨trivial, ⟨h.vector, h.vector', rfl, ?_, rfl⟩, h.quiet⟩
        rw [pending_lay, pending_lay, h.pending]
      · simp only [hcontains, if_false]
        exact Or.inl ⟨trivial, hrefused⟩

end Assembly

namespace Engine

open Attempt

variable {v w : Block}

/-- Payload on engines with different vectors. -/
theorem pairs_unprogrammed (hne : v ≠ w) :
    Pairs config chip (Assembly.Unprogrammed v w : Assembly page × Board σ → _ → Prop)
      (Assembly.Unprogrammed v w) (Assembly.Unharmed v w) Board.Diverge where
  pendingFrom h := by rw [Assembly.pendingFrom, Assembly.pendingFrom, h.buffer, h.pending]
  emit := by
    rintro ⟨a, board⟩ ⟨a', board'⟩ h event hcall
    obtain rfl : board' = board := h.board
    have hevent (call failure) : event ≠ .flash call failure := by
      rintro rfl
      exact hcall trivial
    exact ⟨⟨h.vector, h.vector', h.buffer, h.pending, rfl⟩, h.quiet.push (by simp [hevent]) (by simp [hevent])⟩
  left := by
    intro t t' h err herr
    refine Or.inl ⟨h.toChained, h.quiet.writes, ?_⟩
    rintro ⟨e, rfl⟩
    exact herr.elim
  seek := by
    rintro ⟨a, board⟩ ⟨a', board'⟩ h address
    obtain rfl : board' = board := h.board
    have hload (base : UInt32) : (Assembly.load chip base :
        Attempt (Assembly page × Board σ) Unit).KeepsApart fun t t' => Board.Diverge t.2 t'.2 :=
      fun t => ⟨Assembly.load_keeps (Board.keptByCalls_diverge t.2).1.read,
        Assembly.load_keeps (Board.keptByCalls_diverge t.2).2.read⟩
    apply Assembly.seek_couples (congrArg (Option.map _) h.buffer) h
    apply Couples.bind (Assembly.commit_couples hne h)
    · rintro _ ⟨b, board⟩ ⟨b', board'⟩ hcommitted
      obtain rfl : board' = board := hcommitted.board
      exact Assembly.load_couples_unprogrammed hcommitted
    · exact fun _ => hload _
    · exact fun _ => hload _
  insert := by
    rintro ⟨a, board⟩ ⟨a', board'⟩ h address bytes
    obtain rfl : board' = board := h.board
    exact Assembly.insert_couples h
  commit := by
    rintro ⟨a, board⟩ ⟨a', board'⟩ h
    obtain rfl : board' = board := h.board
    exact Assembly.commit_couples hne h
  lasting := Board.keptByCalls_diverge

/-- Payload on engines that are the same. -/
theorem pairs_eq :
    Pairs config chip (Eq : Assembly page × Board σ → _ → Prop) Eq (fun _ => Eq)
      (fun _ _ => False) := by
  have hself {α : Type} (attempt : Attempt (Assembly page × Board σ) α)
      (t t' : Assembly page × Board σ) (h : t = t') :
      attempt.Couples attempt t t' (fun _ => Eq) (fun _ => Eq) fun _ _ => False := by
    subst h
    exact couples_self (yields_of_forall (fun _ _ => rfl) fun _ _ => rfl)
  have hnever : Board.KeptByCalls chip (fun _ : Board σ => False) :=
    Board.keptByCalls_of_push fun _ _ _ h => h
  exact {
    pendingFrom := fun h => by rw [h]
    emit := fun h event _ => by rw [h]
    left := fun h _ _ => h
    seek := fun h _ => hself _ _ _ h
    insert := fun h _ _ => hself _ _ _ h
    commit := fun h => hself _ _ _ h
    lasting := fun _ => ⟨hnever, hnever⟩ }

end Engine

end FirmwareUpdate
