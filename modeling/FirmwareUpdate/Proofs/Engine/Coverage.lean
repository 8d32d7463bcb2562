import FirmwareUpdate.Proofs.Engine.Verification
import Mathlib.Data.Nat.Init

/-!
# What the digest checks cover

A transfer is under way only after an accepted `data`, so between a digest that matched and the next
`data` nothing is programmed but the tag, and `done` writes only after such a digest. Which range is
hashed is the peer's choice: a confirmed image was hashed in full if the ranges that passed cover the
transfers, and transfers that were programmed whole have to be covered.
-/

namespace FirmwareUpdate

variable {page : Nat} {σ : Type} {config : Config} {chip : NorFlash σ}
variable {s : Snapshot page σ} {a : Arrival}

namespace Exchange

/-- The byte at an address lies in the range of the transfer that the exchange was part of, and in a
run of bytes that the exchange programmed. -/
def Programs (x : Exchange page σ) (address : Nat) : Prop :=
  ∃ base length start bytes,
    x.before.engine.session.activity = .transfer base length ∧
      .flash (.write start bytes) none ∈ x.events ∧
      base.toNat ≤ address ∧ address < base.toNat + length.toNat ∧
      start.toNat ≤ address ∧ address < start.toNat + bytes.length

/-- The packet was accepted as the digest awaited for a range. -/
def Passes (x : Exchange page σ) (address size : UInt32) : Prop :=
  x.mark = some .matched ∧ x.before.engine.session.activity = .digest address size

theorem programs_of_programmed {x : Exchange page σ} {base length start : UInt32} {count address : Nat}
    (hactivity : x.before.engine.session.activity = .transfer base length)
    (hmem : (start, count) ∈ x.events.toList.filterMap Event.programmed?)
    (hlow : base.toNat ≤ address) (hhigh : address < base.toNat + length.toNat)
    (hstart : start.toNat ≤ address) (hstop : address < start.toNat + count) : x.Programs address := by
  obtain ⟨event, hevent, hprogrammed⟩ := List.mem_filterMap.mp hmem
  obtain ⟨bytes, rfl, rfl⟩ := Event.programmed?_eq_some hprogrammed
  exact ⟨base, length, start, bytes, hactivity, Array.mem_toList_iff.mp hevent, hlow, hhigh, hstart,
    hstop⟩

theorem Passes.not_programs {x : Exchange page σ} {address size : UInt32} (h : x.Passes address size)
    (b : Nat) : ¬x.Programs b := by
  rintro ⟨base, length, _, _, htransfer, _⟩
  simp [h.2] at htransfer

end Exchange

/-- A digest check that passed had the byte in its range, and it was not programmed since. -/
def HashedSinceProgrammed (history : List (Exchange page σ)) (address : Nat) : Prop :=
  ∃ earlier check since base size,
    history = earlier ++ check :: since ∧ check.Passes base size ∧
      base.toNat ≤ address ∧ address < base.toNat + size.toNat ∧ ∀ x ∈ since, ¬x.Programs address

/-- Every byte that a transfer programmed was hashed after it was last programmed. -/
def HashedInFull (history : List (Exchange page σ)) : Prop :=
  ∀ b, (∃ x ∈ history, x.Programs b) → HashedSinceProgrammed history b

/-- A check that passed adds its range to what is hashed, if nothing is programmed or checked after
it. -/
theorem hashedSinceProgrammed_check_iff {earlier since : List (Exchange page σ)}
    {check : Exchange page σ} {address size : UInt32} (hpasses : check.Passes address size)
    (hmarks : ∀ x ∈ since, x.mark = none) {b : Nat} (hnone : ∀ x ∈ since, ¬x.Programs b) :
    HashedSinceProgrammed (earlier ++ check :: since) b ↔
      HashedSinceProgrammed earlier b ∨ (address.toNat ≤ b ∧ b < address.toNat + size.toNat) := by
  constructor
  · rintro ⟨earlier', check', since', base, size', hsplit, hpasses', hlow, hhigh, hnone'⟩
    rcases cut_twice hsplit with ⟨-, rfl, -⟩ | ⟨between, rfl, rfl⟩ | ⟨between, rfl, rfl⟩
    · obtain ⟨rfl, rfl⟩ := Activity.digest.inj (hpasses.2.symm.trans hpasses'.2)
      exact Or.inr ⟨hlow, hhigh⟩
    · exact Or.inl ⟨earlier', check', between, base, size', rfl, hpasses', hlow, hhigh,
        fun x hx => hnone' x (by simp [hx])⟩
    · have hmark := hmarks check' (by simp)
      simp [hpasses'.1] at hmark
  · rintro (⟨earlier', check', since', base, size', rfl, hpasses', hlow, hhigh, hnone'⟩ | ⟨hlow, hhigh⟩)
    · refine ⟨earlier', check', since' ++ check :: since, base, size', by simp, hpasses', hlow, hhigh,
        fun x hx => ?_⟩
      rcases List.mem_append.mp hx with hx | hx
      · exact hnone' x hx
      · rcases List.mem_cons.mp hx with rfl | hx
        · exact hpasses.not_programs b
        · exact hnone x hx
    · exact ⟨earlier, check, since, address, size, rfl, hpasses, hlow, hhigh, hnone⟩

/-- The last element of a list with a property that some element has. -/
theorem exists_last {α : Type} {p : α → Prop} {xs : List α} (h : ∃ x ∈ xs, p x) :
    ∃ earlier x later, xs = earlier ++ x :: later ∧ p x ∧ ∀ y ∈ later, ¬p y := by
  induction xs using List.reverseRecOn with
  | nil => simp at h
  | append_singleton xs x ih =>
      by_cases hx : p x
      · exact ⟨xs, x, [], rfl, hx, by simp⟩
      · obtain ⟨y, hy, hp⟩ := h
        have hbefore : y ∈ xs := by
          rcases List.mem_append.mp hy with hy | hy
          · exact hy
          · exact absurd (List.mem_singleton.mp hy ▸ hp) hx
        obtain ⟨earlier, z, later, rfl, hz, hlater⟩ := ih ⟨y, hbefore, hp⟩
        refine ⟨earlier, z, later ++ [x], by simp, hz, fun w hw => ?_⟩
        rcases List.mem_append.mp hw with hw | hw
        · exact hlater w hw
        · rw [List.mem_singleton.mp hw]
          exact hx

/-- The last of the values that a function gives on a list, with what it is given for. -/
theorem exists_of_getLast?_filterMap {α β : Type} {f : α → Option β} {xs : List α} {b : β}
    (h : (xs.filterMap f).getLast? = some b) :
    ∃ earlier x since, xs = earlier ++ x :: since ∧ f x = some b ∧ ∀ y ∈ since, f y = none := by
  obtain ⟨x, hx, hgiven⟩ := List.mem_filterMap.mp (List.mem_of_getLast? h)
  obtain ⟨earlier, y, since, rfl, hy, hsince⟩ := exists_last (p := fun x => f x ≠ none)
    ⟨x, hx, by simp [hgiven]⟩
  obtain ⟨c, hc⟩ := Option.ne_none_iff_exists'.mp hy
  have hnone : since.filterMap f = [] :=
    List.filterMap_eq_nil_iff.mpr fun z hz => not_not.mp (hsince z hz)
  rw [List.filterMap_append, List.filterMap_cons_some hc, hnone, List.getLast?_concat] at h
  exact ⟨earlier, y, since, rfl, hc.trans h, fun z hz => not_not.mp (hsince z hz)⟩

/-! ### Ranges -/

/-- The range of a transfer that was accepted, or of a digest check that passed. -/
inductive Extent where
  | transfer (base : UInt32) (length : UInt16)
  | check (address size : UInt32)
deriving DecidableEq, Repr

/-- The byte at an address lies in the range. -/
def Extent.Has : Extent → Nat → Prop
  | transfer base length, b => base.toNat ≤ b ∧ b < base.toNat + length.toNat
  | check address size, b => address.toNat ≤ b ∧ b < address.toNat + size.toNat

instance (extent : Extent) (b : Nat) : Decidable (extent.Has b) := by
  cases extent <;> exact inferInstanceAs (Decidable (_ ∧ _))

/-- The range that an exchange adds to the history, if it adds one. -/
def Exchange.extent? (x : Exchange page σ) : Option Extent :=
  match x.mark, x.arrival.packet.command?, x.before.engine.session.activity with
  | some .transfer, some p, _ => some (.transfer p.address p.length)
  | some .matched, _, .digest address size => some (.check address size)
  | _, _, _ => none

theorem Exchange.extent?_eq_transfer_iff {x : Exchange page σ} {base : UInt32} {length : UInt16} :
    x.extent? = some (.transfer base length) ↔ x.Begins base length := by
  constructor
  · intro h
    unfold extent? at h
    split at h
    · next hmark hcommand =>
        obtain ⟨hanswer, p, hp, hdata⟩ := accepts_data_of_mark hmark
        obtain rfl := Option.some.inj (hcommand.symm.trans hp)
        obtain ⟨rfl, rfl⟩ := Extent.transfer.inj (Option.some.inj h)
        exact ⟨hanswer, by rw [hp, ← hdata]⟩
    · simp at h
    · simp at h
  · intro h
    simp [extent?, h.mark, h.2]

theorem Exchange.extent?_eq_check_iff {x : Exchange page σ} {address size : UInt32} :
    x.extent? = some (.check address size) ↔ x.Passes address size := by
  constructor
  · intro h
    unfold extent? at h
    split at h
    · simp at h
    · next hmark hactivity =>
        obtain ⟨rfl, rfl⟩ := Extent.check.inj (Option.some.inj h)
        exact ⟨hmark, hactivity⟩
    · simp at h
  · rintro ⟨hmark, hactivity⟩
    simp [extent?, hmark, hactivity]

/-- Each byte of a range lies in one of those further on. -/
def Extent.HandedOn (later : List Extent) (base : UInt32) (length : UInt16) : Prop :=
  ∀ b, base.toNat ≤ b → b < base.toNat + length.toNat → ∃ e ∈ later, e.Has b

instance (later : List Extent) (base : UInt32) (length : UInt16) :
    Decidable (Extent.HandedOn later base length) :=
  Nat.decidableLoHi _ _ _

/-- Where a check follows a transfer, each byte of the transfer lies in a range further on. -/
def ChecksCover (extents : List Extent) : Prop :=
  ∀ earlier base length later, extents = earlier ++ .transfer base length :: later →
    (∃ e ∈ later, e matches .check _ _) → Extent.HandedOn later base length

theorem checksCover_cons {first : Extent} {extents : List Extent} :
    ChecksCover (first :: extents) ↔
      (∀ base length, first = .transfer base length → (∃ e ∈ extents, e matches .check _ _) →
        Extent.HandedOn extents base length) ∧ ChecksCover extents := by
  constructor
  · intro h
    exact ⟨fun base length hfirst => h [] base length extents (by rw [hfirst]; rfl),
      fun earlier base length later hsplit =>
        h (first :: earlier) base length later (by rw [hsplit]; rfl)⟩
  · rintro ⟨hfirst, hlater⟩ earlier base length later hsplit
    cases earlier with
    | nil =>
        obtain ⟨rfl, rfl⟩ := List.cons.inj hsplit
        exact hfirst base length rfl
    | cons e earlier => exact hlater earlier base length later (List.cons.inj hsplit).2

instance decidableChecksCover : (extents : List Extent) → Decidable (ChecksCover extents)
  | [] => isTrue fun _ _ _ _ h => by simp at h
  | .check _ _ :: later =>
    have := decidableChecksCover later
    decidable_of_iff (ChecksCover later) (by simp [checksCover_cons])
  | .transfer base length :: later =>
    have := decidableChecksCover later
    decidable_of_iff
      (((∃ e ∈ later, e matches .check _ _) → Extent.HandedOn later base length) ∧ ChecksCover later)
      (by simp [checksCover_cons])

/-- Each byte in the range of a transfer that was accepted is programmed afterwards. -/
def TransfersProgrammed (history : List (Exchange page σ)) : Prop :=
  ∀ earlier x later base length,
    history = earlier ++ x :: later → x.Begins base length →
      ∀ b, base.toNat ≤ b → b < base.toNat + length.toNat → ∃ y ∈ later, y.Programs b

/-- Transfers that were programmed whole are covered by the checks, if all was hashed. -/
theorem HashedInFull.checksCover {history : List (Exchange page σ)} (h : HashedInFull history)
    (hwhole : TransfersProgrammed history) : ChecksCover (history.filterMap Exchange.extent?) := by
  intro extents base length later hextents _ b hlow hhigh
  obtain ⟨earlier, rest, rfl, -, hrest⟩ := List.filterMap_eq_append_iff.mp hextents
  obtain ⟨between, begun, since, rfl, -, hbegun, rfl⟩ := List.filterMap_eq_cons_iff.mp hrest
  rw [← List.append_assoc] at h hwhole
  obtain ⟨x, hx, hprograms⟩ :=
    hwhole _ begun since base length rfl (Exchange.extent?_eq_transfer_iff.mp hbegun) b hlow hhigh
  obtain ⟨earlier', check, since', address, size, hcut, hpasses, hlow', hhigh', hnone⟩ :=
    h b ⟨x, by simp [hx], hprograms⟩
  rcases cut_twice hcut with ⟨-, -, rfl⟩ | ⟨_, -, rfl⟩ | ⟨_, -, rfl⟩
  · exact absurd hprograms (hnone x hx)
  · exact absurd hprograms (hnone x (by simp [hx]))
  · exact ⟨.check address size,
      List.mem_filterMap.mpr ⟨check, by simp, Exchange.extent?_eq_check_iff.mpr hpasses⟩, hlow', hhigh'⟩

/-! ### When a transfer is under way -/

namespace Engine

open Attempt

variable {now : UInt64} {e : Engine page} {board : Board σ}

/-- Any transfer under way is the one that was under way before. -/
def SameTransfer (before after : Activity) : Prop :=
  ∀ base length, after = .transfer base length → before = .transfer base length

theorem execute_sameTransfer {packet : ControlPacket} :
    (execute config chip now packet).Yields (e, board)
      (fun _ st => packet.command ≠ .data →
        SameTransfer e.session.activity st.1.session.activity)
      fun _ st => SameTransfer e.session.activity st.1.session.activity := by
  have hsame : SameTransfer e.session.activity e.session.activity := fun _ _ h => h
  have hnone {activity : Activity} (h : ∀ base length, activity ≠ .transfer base length) :
      SameTransfer e.session.activity activity := fun base length heq => absurd heq (h base length)
  apply yields_execute (fun _ _ => hsame)
  cases packet.command with
  | restart => exact fun _ => hnone (by simp)
  | data => exact fun _ _ _ _ => yields_of_forall (fun _ _ h => absurd rfl h) fun _ _ => hsame
  | vector => exact fun _ _ => hnone (by simp)
  | digest => exact fun _ _ => hnone (by simp)
  | done => exact fun _ _ => yields_of_forall (fun _ _ _ => hsame) fun _ _ => hsame
  | reset => exact fun _ => hsame
  | ping => exact fun _ => hsame

theorem consume_sameTransfer {bytes : Bytes} :
    (consume config chip now bytes).Yields (e, board)
      (fun _ st => SameTransfer e.session.activity st.1.session.activity)
      fun _ st => SameTransfer e.session.activity st.1.session.activity := by
  have hsame : SameTransfer e.session.activity e.session.activity := fun _ _ h => h
  have hidle : SameTransfer e.session.activity .idle := fun _ _ h => by simp at h
  refine yields_consume.mpr ⟨fun _ => ?_, fun _ => ?_⟩
  · cases hactivity : e.session.activity with
    | transfer base length => exact fun _ _ h => h
    | idle | chainVector | digest => exact fun _ _ h => by simp [dropExpected] at h
  · split
    · exact hsame
    · exact yields_receiveVector (fun _ => hidle) fun _ _ => hidle
    · exact yields_receiveDigest (fun _ => hidle) fun _ _ => yields_checkDigest.mpr
        (yields_of_forall (fun _ _ => ⟨fun _ => hidle, fun _ => hidle⟩) fun _ _ => hidle)
    · refine receivePayload_session.mono (fun _ st hst => ?_) fun _ st hst => ?_
      · rcases hst with ⟨_, hactivity⟩ | ⟨_, hended, _⟩
        · rw [hactivity]
          exact hsame
        · rw [hended]
          exact hidle
      · rw [hst.2]
        exact hsame

end Engine

namespace Snapshot

/-- A transfer comes under way only by an accepted `data`. -/
theorem exchange_sameTransfer (h : (s.exchange config chip a).mark ≠ some .transfer) :
    Engine.SameTransfer s.engine.session.activity
      (s.exchange config chip a).after.engine.session.activity := by
  have hsame : Engine.SameTransfer s.engine.session.activity s.engine.session.activity :=
    fun _ _ h => h
  unfold Exchange.mark at h
  rw [exchange_arrival, exchange_before] at h
  refine exchange_of_yields (Q := fun answer e _ =>
    a.packet.mark s.engine.session.activity answer ≠ some .transfer →
      Engine.SameTransfer s.engine.session.activity e.session.activity) ?_ h
  refine Engine.yields_receive.mpr ⟨fun _ _ => hsame, fun _ _ _ => hsame, fun _ _ => ?_⟩
  cases hpacket : a.packet with
  | control bytes =>
      refine Engine.yields_handle_control (fun _ _ _ => hsame) fun packet hdecode => ?_
      refine Engine.execute_sameTransfer.mono (fun _ _ hst hmark => hst fun hcommand => ?_)
        fun _ _ hst _ => hst
      apply hmark
      simp [Packet.mark, Packet.command?, hdecode, hcommand, Except.toOption, Command.mark]
  | data bytes =>
      exact Engine.consume_sameTransfer.mono (fun _ _ hst _ => hst) fun _ _ hst _ => hst

/-- A transfer that is under way after a packet was so before it, or was begun by it. -/
theorem transfer_or_begins {base length : UInt32}
    (h : (s.exchange config chip a).after.engine.session.activity = .transfer base length) :
    s.engine.session.activity = .transfer base length ∨
      ∃ count : UInt16, (s.exchange config chip a).Begins base count ∧ length = count.toUInt32 := by
  by_cases hmark : (s.exchange config chip a).mark = some .transfer
  · obtain ⟨hanswer, ⟨command, count, start⟩, hcommand, rfl⟩ := Exchange.accepts_data_of_mark hmark
    have hbegins : (s.exchange config chip a).Begins start count := ⟨hanswer, hcommand⟩
    have hactivity := exchange_of_begins hbegins (Q := fun st =>
      st.1.session.activity = .transfer start count.toUInt32)
      fun _ _ _ _ => Attempt.yields_of_forall (fun _ _ => rfl) fun _ _ => trivial
    obtain ⟨rfl, rfl⟩ := Activity.transfer.inj (h.symm.trans hactivity)
    exact Or.inr ⟨count, hbegins, rfl⟩
  · exact Or.inl (exchange_sameTransfer hmark base length h)

/-- A history cut at one of its exchanges is the history of the packets cut likewise. -/
theorem exchanges_eq_append_cons {as : List Arrival} {earlier since : List (Exchange page σ)}
    {x : Exchange page σ} (h : s.exchanges config chip as = earlier ++ x :: since) :
    ∃ as₁ a as₂, as = as₁ ++ a :: as₂ ∧ earlier = s.exchanges config chip as₁ ∧
      x = (s.run config chip as₁).exchange config chip a ∧
      since = x.after.exchanges config chip as₂ := by
  induction earlier generalizing s as with
  | nil =>
      cases as with
      | nil => simp [exchanges] at h
      | cons a as =>
          rw [exchanges, List.nil_append, List.cons.injEq] at h
          obtain ⟨rfl, rfl⟩ := h
          exact ⟨[], a, as, rfl, rfl, rfl, rfl⟩
  | cons y earlier ih =>
      cases as with
      | nil => simp [exchanges] at h
      | cons a as =>
          rw [exchanges, List.cons_append, List.cons.injEq] at h
          obtain ⟨rfl, h⟩ := h
          obtain ⟨as₁, a', as₂, rfl, rfl, rfl, rfl⟩ := ih h
          exact ⟨a :: as₁, a', as₂, rfl, rfl, rfl, rfl⟩

/-- What is programmed lies in the range of the transfer under way, or of one accepted since. -/
theorem transfer_of_programs {as : List Arrival} {x : Exchange page σ}
    (hx : x ∈ s.exchanges config chip as) {b : Nat} (h : x.Programs b) :
    (∃ base length, s.engine.session.activity = .transfer base length ∧
        base.toNat ≤ b ∧ b < base.toNat + length.toNat) ∨
      ∃ y ∈ s.exchanges config chip as, ∃ base length,
        y.Begins base length ∧ (Extent.transfer base length).Has b := by
  induction as generalizing s with
  | nil => simp [exchanges] at hx
  | cons a as ih =>
      rw [exchanges] at hx ⊢
      rcases List.mem_cons.mp hx with rfl | hx
      · obtain ⟨base, length, _, _, hactivity, _, hlow, hhigh, _⟩ := h
        rw [exchange_before] at hactivity
        exact Or.inl ⟨base, length, hactivity, hlow, hhigh⟩
      · rcases ih hx with ⟨base, length, hactivity, hhas⟩ | ⟨y, hy, hbegins⟩
        · rcases transfer_or_begins hactivity with hbefore | ⟨count, hbegins, rfl⟩
          · exact Or.inl ⟨base, length, hbefore, hhas⟩
          · refine Or.inr ⟨_, List.mem_cons_self, base, count, hbegins, ?_⟩
            simpa [Extent.Has] using hhas
        · exact Or.inr ⟨y, List.mem_cons_of_mem _ hy, hbegins⟩

/-- After a check that passed a byte is programmed only by a transfer that was accepted since. -/
theorem not_programs_of_passes {as : List Arrival} {earlier since : List (Exchange page σ)}
    {check : Exchange page σ} {address size : UInt32}
    (h : s.exchanges config chip as = earlier ++ check :: since) (hpasses : check.Passes address size)
    {b : Nat} (hbegins : ∀ x ∈ since, ∀ base length,
      x.Begins base length → ¬(Extent.transfer base length).Has b) :
    ∀ x ∈ since, ¬x.Programs b := by
  obtain ⟨as₁, a, as₂, rfl, rfl, rfl, rfl⟩ := exchanges_eq_append_cons h
  intro x hx hprograms
  rcases transfer_of_programs hx hprograms with ⟨base, length, htransfer, _⟩ | ⟨y, hy, base, length, hy'⟩
  · obtain ⟨hmark, hactivity⟩ := hpasses
    have hbefore := exchange_sameTransfer (by simp [hmark]) base length htransfer
    rw [exchange_before] at hactivity
    simp [hactivity] at hbefore
  · exact hbegins y hy base length hy'.1 hy'.2

/-- While a match counts, every transfer was followed by a check. -/
theorem passes_of_begins {as : List Arrival} (hunmatched : s.engine.session.verdict ≠ .matched)
    (hmatched : (s.run config chip as).engine.session.verdict = .matched)
    {earlier later : List (Exchange page σ)} {x : Exchange page σ} {base : UInt32} {length : UInt16}
    (h : s.exchanges config chip as = earlier ++ x :: later) (hbegins : x.Begins base length) :
    ∃ check ∈ later, ∃ address size, check.Passes address size := by
  rw [run_verdict_eq_matched_iff hunmatched] at hmatched
  obtain ⟨earlier', check, since, hcut, hmark, hmarks⟩ := exists_of_getLast?_filterMap hmatched
  rcases cut_twice (h.symm.trans hcut) with ⟨-, rfl, -⟩ | ⟨between, -, rfl⟩ | ⟨between, -, rfl⟩
  · simp [hbegins.mark] at hmark
  · have hx := hmarks x (by simp)
    simp [hbegins.mark] at hx
  · obtain ⟨address, size, _, _, hactivity, _⟩ := Exchange.mark_eq_matched hmark
    exact ⟨check, by simp, address, size, hmark, hactivity⟩

/-- While a match counts, checks that cover the transfers have hashed all that was programmed. -/
theorem hashedInFull_of_checksCover {as : List Arrival}
    (hidle : ∀ base length, s.engine.session.activity ≠ .transfer base length)
    (hunmatched : s.engine.session.verdict ≠ .matched)
    (hmatched : (s.run config chip as).engine.session.verdict = .matched)
    (hcover : ChecksCover ((s.exchanges config chip as).filterMap Exchange.extent?)) :
    HashedInFull (s.exchanges config chip as) := by
  rintro b ⟨x, hx, hprograms⟩
  have hbegun := (transfer_of_programs hx hprograms).resolve_left
    fun ⟨base, length, hactivity, _⟩ => hidle base length hactivity
  -- The last transfer with the byte decides: a check after it is followed by no other.
  obtain ⟨earlier, y, later, hsplit, ⟨base, length, hbegins, hhas⟩, hlast⟩ := exists_last hbegun
  obtain ⟨check, hcheck, address, size, hpasses⟩ :=
    passes_of_begins hunmatched hmatched hsplit hbegins
  rw [hsplit, List.filterMap_append,
    List.filterMap_cons_some (Exchange.extent?_eq_transfer_iff.mpr hbegins)] at hcover
  have hfollowed : ∃ e ∈ later.filterMap Exchange.extent?, e matches .check _ _ :=
    ⟨.check address size,
      List.mem_filterMap.mpr ⟨check, hcheck, Exchange.extent?_eq_check_iff.mpr hpasses⟩, rfl⟩
  obtain ⟨e, he, hehas⟩ :=
    hcover _ base length _ rfl hfollowed b hhas.1 hhas.2
  obtain ⟨z, hz, hextent⟩ := List.mem_filterMap.mp he
  cases e with
  | transfer base' length' =>
      exact absurd ⟨base', length', Exchange.extent?_eq_transfer_iff.mp hextent, hehas⟩ (hlast z hz)
  | check address' size' =>
      obtain ⟨between, since, rfl⟩ := List.append_of_mem hz
      have hpasses' := Exchange.extent?_eq_check_iff.mp hextent
      have hcut : s.exchanges config chip as = (earlier ++ y :: between) ++ z :: since := by
        rw [hsplit]
        simp
      refine ⟨_, z, since, address', size', hcut, hpasses', hehas.1, hehas.2, ?_⟩
      refine not_programs_of_passes hcut hpasses' fun x hx base length hbegins hhas => ?_
      exact hlast x (by simp [hx]) ⟨base, length, hbegins, hhas⟩

/-- Once `done` has written, the image was hashed in full exactly if the last check that passed makes
up for those before it. It was so if the checks cover the transfers, and if the transfers were
programmed whole it was so only then. -/
theorem hashedInFull_iff_of_done_writes (config : Config) (chip : NorFlash σ) (flash : σ)
    (past : List Arrival) (a : Arrival)
    (hdone : (((⟨{}, flash⟩ : Snapshot page σ).run config chip past).exchange config chip a).Asks
      .done)
    (hwrites : (((⟨{}, flash⟩ : Snapshot page σ).run config chip past).exchange config chip a).Writes) :
    let history := (⟨{}, flash⟩ : Snapshot page σ).exchanges config chip past
    (∃ earlier check since address size,
      history = earlier ++ check :: since ∧ check.Passes address size ∧
        (∀ x ∈ since, x.mark = none ∧ ∀ b, ¬x.Programs b) ∧
        (HashedInFull history ↔
          ∀ b, (∃ x ∈ earlier, x.Programs b) → ¬HashedSinceProgrammed earlier b →
            address.toNat ≤ b ∧ b < address.toNat + size.toNat)) ∧
    (ChecksCover (history.filterMap Exchange.extent?) → HashedInFull history) ∧
    (TransfersProgrammed history → HashedInFull history →
      ChecksCover (history.filterMap Exchange.extent?)) := by
  intro history
  have hunmatched : (⟨{}, flash⟩ : Snapshot page σ).engine.session.verdict ≠ .matched := by simp
  obtain ⟨_, _, _, hmatched⟩ :=
    Engine.doneRefusal?_eq_none_iff.mp (exchange_done_of_writes hdone hwrites)
  refine ⟨?_, hashedInFull_of_checksCover (by simp) hunmatched hmatched,
    fun hwhole hfull => hfull.checksCover hwhole⟩
  rw [run_verdict_eq_matched_iff hunmatched] at hmatched
  obtain ⟨earlier, check, since, hhistory, hmark, hmarks⟩ := exists_of_getLast?_filterMap hmatched
  obtain ⟨address, size, _, _, hactivity, _⟩ := Exchange.mark_eq_matched hmark
  have hpasses : check.Passes address size := ⟨hmark, hactivity⟩
  have hnone : ∀ x ∈ since, ∀ b, ¬x.Programs b := fun x hx b =>
    not_programs_of_passes hhistory hpasses
      (fun y hy _ _ hbegins => absurd hbegins.mark (by simp [hmarks y hy])) x hx
  refine ⟨earlier, check, since, address, size, hhistory, hpasses,
    fun x hx => ⟨hmarks x hx, hnone x hx⟩, ?_⟩
  have hprograms (b : Nat) : (∃ x ∈ history, x.Programs b) ↔ ∃ x ∈ earlier, x.Programs b := by
    have hsince : ¬∃ x ∈ since, x.Programs b := fun ⟨x, hx, h⟩ => hnone x hx b h
    simp [history, hhistory, or_and_right, exists_or, hpasses.not_programs b, hsince]
  unfold HashedInFull
  refine forall_congr' fun b => ?_
  rw [hprograms, show history = earlier ++ check :: since from hhistory,
    hashedSinceProgrammed_check_iff hpasses hmarks fun x hx => hnone x hx b]
  exact imp_congr_right fun _ => or_iff_not_imp_left

end Snapshot

namespace SmallDevice

/-- A block of zeros for the unit at an address, and then the digest of that unit. -/
def checkedBlock (address : UInt32) : List Arrival :=
  [command { command := .data, length := 16, address },
    data (PayloadPacket.encode { address, payload := List.replicate 16 0 }),
    command { command := .digest, length := 16, address }, data (Sha256.hash plain).toList]

/-- An update in two blocks. -/
def blocks : List Arrival := checkedBlock 48 ++ checkedBlock 64

/-- The range that each exchange adds, and what it programs. -/
theorem steps_blocks_done :
    (history (blocks ++ [done])).map
        (fun x => (x.extent?, x.events.toList.filterMap Event.programmed?)) =
      [(some (.transfer 48 16), []), (none, [(48, 16)]), (none, []), (some (.check 48 16), []),
        (some (.transfer 64 16), []), (none, [(64, 16)]), (none, []), (some (.check 64 16), [])] ++
        [(none, [(32, 4)])] := by
  decide +kernel

theorem steps_blocks :
    (history blocks).filterMap Exchange.extent? =
        [.transfer 48 16, .check 48 16, .transfer 64 16, .check 64 16] ∧
      (next blocks done).events.toList.filterMap Event.programmed? = [(32, 4)] := by
  obtain ⟨hpast, hnext⟩ := map_history_of_concat steps_blocks_done
  have hextents := congrArg (List.filterMap Prod.fst) hpast
  rw [List.filterMap_map] at hextents
  exact ⟨hextents, (Prod.mk.inj hnext).2⟩

theorem done_writes_blocks : (next blocks done).Writes := by
  have hmem : ((32, 4) : UInt32 × Nat) ∈
      (next blocks done).events.toList.filterMap Event.programmed? := by
    rw [steps_blocks.2]
    exact List.mem_singleton_self _
  obtain ⟨event, hevent, hprogrammed⟩ := List.mem_filterMap.mp hmem
  obtain ⟨bytes, rfl, -⟩ := Event.programmed?_eq_some hprogrammed
  exact ⟨32, bytes, none, Array.mem_toList_iff.mp hevent⟩

end SmallDevice

open SmallDevice in
theorem hashedInFull_blocks :
    (next blocks done).Asks .done ∧ (next blocks done).Writes ∧
      ChecksCover ((history blocks).filterMap Exchange.extent?) ∧ HashedInFull (history blocks) := by
  have hcover : ChecksCover ((history blocks).filterMap Exchange.extent?) := by
    rw [steps_blocks.1]
    decide
  have h := Snapshot.hashedInFull_iff_of_done_writes SmallDevice.config SmallDevice.chip
    SmallDevice.flash blocks done (asks_done blocks) done_writes_blocks
  exact ⟨asks_done blocks, done_writes_blocks, hcover, h.2.1 hcover⟩

/-! ### A digest of something else -/

namespace SmallDevice

/-- A transfer to the unit after that of the tag, and then the digest of the tag alone. -/
def unhashed : List Arrival :=
  [command { command := .data, length := 16, address := 48 },
    data (PayloadPacket.encode { address := 48, payload := List.replicate 16 0 })] ++ check

/-- What each exchange found awaited, and what the engine did. -/
def stepsUnhashed : List (Activity × Array Event) :=
  [(.idle, #[.flash (.read 48 16) none]),
    (.transfer 48 16,
      #[.flash (.erase 48 64) none, .flash (.write 48 plain) none,
        .report { expected := 16, progress := 16, bytes := 16, elapsedMs := 0 }]),
    (.idle, #[]),
    (.digest 32 4, #[.flash (.read 32 4) none])]

theorem steps_unhashed_done :
    (history (unhashed ++ [done])).map (fun x => (x.before.engine.session.activity, x.events)) =
      stepsUnhashed ++
        [(.idle,
          #[.flash (Confirmation.tagRead 32) none, .flash (Confirmation.tagWrite 32) none,
            .flash (Confirmation.tagRead 32) none])] := by
  decide +kernel

theorem steps_unhashed :
    (history unhashed).map (fun x => (x.before.engine.session.activity, x.events)) =
        stepsUnhashed ∧
      (next unhashed done).events =
        #[.flash (Confirmation.tagRead 32) none, .flash (Confirmation.tagWrite 32) none,
          .flash (Confirmation.tagRead 32) none] := by
  obtain ⟨hpast, hnext⟩ := map_history_of_concat steps_unhashed_done
  exact ⟨hpast, (Prod.mk.inj hnext).2⟩

end SmallDevice

open SmallDevice in
/-- `done` can write although a byte was programmed that no digest covers. -/
theorem done_writes_over_unhashed :
    .flash (Confirmation.tagWrite 32) none ∈ (next unhashed done).events ∧
      (∃ x ∈ history unhashed, x.Programs 48) ∧ ¬HashedSinceProgrammed (history unhashed) 48 := by
  obtain ⟨hpast, hdone⟩ := steps_unhashed
  refine ⟨by rw [hdone]; simp, ?_, ?_⟩
  · have hmem : stepsUnhashed[1] ∈
        (history unhashed).map fun x => (x.before.engine.session.activity, x.events) := by
      rw [hpast]
      exact List.getElem_mem _
    obtain ⟨x, hx, heq⟩ := List.mem_map.mp hmem
    obtain ⟨hactivity, hevents⟩ := Prod.mk.inj heq
    refine ⟨x, hx, 48, 16, 48, plain, hactivity, ?_, by decide⟩
    rw [hevents]
    simp
  · rintro ⟨earlier, check, since, base, size, hhistory, ⟨_, hactivity⟩, hstart, hstop, _⟩
    have hmem : check ∈ history unhashed := by simp [hhistory]
    have hin := List.mem_map_of_mem (f := fun x => (x.before.engine.session.activity, x.events)) hmem
    rw [hpast] at hin
    simp only [stepsUnhashed, hactivity, List.mem_cons, Prod.mk.injEq, Activity.digest.injEq, reduceCtorEq,
      false_and, false_or, List.not_mem_nil, or_false] at hin
    obtain ⟨⟨rfl, rfl⟩, _⟩ := hin
    exact absurd hstop (by decide)

end FirmwareUpdate
