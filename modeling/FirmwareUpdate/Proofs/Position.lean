import FirmwareUpdate.Proofs.Mirror

/-!
# Where the cursor stands

During a transfer the pending bytes begin where the range of the transfer does or where their unit
does, and reach at least as far as the cursor; with nothing pending the cursor is at the start of the
range, at its end or at the start of a unit. Taking up units, laying bytes in and committing preserve
this on every chip, whatever it answers. A unit is reprogrammed only as far as it belongs to the range.
-/

namespace FirmwareUpdate

variable {page : Nat} {σ : Type}

/-- The unit at an address is a whole one with at least one byte of the range from `base` up to
`limit`. -/
structure IsUnitOf (page base limit unit : Nat) : Prop where
  aligned : page ∣ unit
  nonempty : max base unit < min (unit + page) limit

/-- The units of a range are units of every range around it. -/
theorem IsUnitOf.mono {base limit base' limit' unit : Nat} (h : IsUnitOf page base limit unit)
    (hbase : base' ≤ base) (hlimit : limit ≤ limit') : IsUnitOf page base' limit' unit := by
  have hnonempty := h.nonempty
  exact ⟨h.aligned, by omega⟩

/-- What calls do to properties of the board: `P frontier` holds while all bytes of the range before
`frontier` are programmed and nothing was refused, `Halted frontier cursor` once a call was refused that
was made with bytes from `frontier` up to `cursor` pending. -/
structure Board.Tracks (chip : NorFlash σ) (page base limit : Nat) (P : Nat → Board σ → Prop)
    (Halted : Nat → Nat → UpdateError → Board σ → Prop) : Prop where
  read : ∀ {unit : UInt32} {frontier board}, IsUnitOf page base limit unit.toNat →
    P frontier board →
      (Board.read chip unit page).Yields board (fun _ => P frontier) (Halted frontier frontier)
  program : ∀ {u : UnitBuffer page} {stop board}, IsUnitOf page base limit u.base.toNat →
    stop.toNat = u.base.toNat + page → P (max base u.base.toNat) board →
      (Assembly.reprogram chip u stop).Yields board
        (fun _ => P (min (u.base.toNat + page) limit))
        (Halted (max base u.base.toNat) (min (u.base.toNat + page) limit))
  unaligned : ∀ {unit address length board}, IsUnitOf page base limit unit →
    (min (unit + page) limit - max base unit) % Block.size ≠ 0 → P (max base unit) board →
      Halted (max base unit) (min (unit + page) limit) (.unaligned address length) board
  beyond : ∀ {unit board}, IsUnitOf page base limit unit → UInt32.size ≤ unit + page →
    P (max base unit) board →
      Halted (max base unit) (min (unit + page) limit) (.flash .outOfBounds) board

/-- A property that reads preserve, and reprogramming the units of the range, needs no frontier. -/
theorem Board.KeptByReads.tracks {chip : NorFlash σ} {base limit : Nat} {P : Board σ → Prop}
    (h : Board.KeptByReads chip P)
    (hprogram : ∀ {u : UnitBuffer page} {stop}, IsUnitOf page base limit u.base.toNat →
      stop.toNat = u.base.toNat + page → (Assembly.reprogram chip u stop).Keeps P) :
    Board.Tracks chip page base limit (fun _ => P) (fun _ _ _ => P) where
  read _ hP := h.read _ _ _ hP
  program hunit hstop hP := hprogram hunit hstop _ hP
  unaligned _ _ hP := hP
  beyond _ _ hP := hP

/-- The pending span of a unit begins where the range or the unit does, and reaches at least as far as
the cursor, but leaves neither. -/
structure UnitBuffer.Spans (base limit cursor : Nat) (u : UnitBuffer page) (s : Span) : Prop where
  start : u.base.toNat + s.start = max base u.base.toNat
  nonempty : s.start < s.stop
  stop_le_page : s.stop ≤ page
  start_le : u.base.toNat + s.start ≤ cursor
  cursor_le : cursor ≤ u.base.toNat + s.stop
  stop_le : u.base.toNat + s.stop ≤ limit

namespace Assembly

/-- The buffered unit, if there is one, is a whole unit. -/
def Aligned (a : Assembly page) : Prop := ∀ u, a.buffer = some u → page ∣ u.base.toNat

/-- The cursor is in the range from `base` up to `limit`, and the pending bytes are in place. -/
structure Positioned (base limit cursor : Nat) (a : Assembly page) : Prop where
  aligned : a.Aligned
  base_le : base ≤ cursor
  le_limit : cursor ≤ limit
  coherent : a.Coherent
  pending : ∀ u s, a.buffer = some u → a.pending = some s → u.Spans base limit cursor s
  nothing : a.NothingPending → cursor = base ∨ page ∣ cursor ∨ cursor = limit

/-- The bytes of the range before this address are not pending. -/
def frontier (a : Assembly page) (cursor : Nat) : Nat :=
  (a.pendingFrom.map UInt32.toNat).getD cursor

variable {a : Assembly page} {u : UnitBuffer page} {s : Span} {base limit cursor : Nat}

theorem frontier_of_nothing (h : a.NothingPending) : a.frontier cursor = cursor := by
  simp [frontier, pendingFrom_of_nothing h]

theorem aligned_discard (a : Assembly page) : a.discard.Aligned := by
  intro u h
  simp [discard] at h

theorem aligned_release (a : Assembly page) : a.release.Aligned := by
  intro u h
  simp at h

end Assembly

theorem UnitBuffer.Spans.toNat_start {u : UnitBuffer page} {s : Span} {base limit cursor : Nat}
    (h : u.Spans base limit cursor s) (hlimit : limit < UInt32.size) :
    (u.base + UInt32.ofNat s.start).toNat = max base u.base.toNat := by
  have hnonempty := h.nonempty
  have hstop := h.stop_le
  rw [← h.start]
  exact Address.toNat_add_ofNat (by omega)

/-- The unit of a pending span has a byte of the range. -/
theorem UnitBuffer.Spans.isUnitOf {u : UnitBuffer page} {s : Span} {base limit cursor : Nat}
    (h : u.Spans base limit cursor s) (haligned : page ∣ u.base.toNat) :
    IsUnitOf page base limit u.base.toNat := by
  refine ⟨haligned, ?_⟩
  have hstart := h.start
  have hnonempty := h.nonempty
  have hpage := h.stop_le_page
  have hstop := h.stop_le
  omega

namespace Assembly

variable {a : Assembly page} {u : UnitBuffer page} {s : Span} {base limit cursor : Nat}

theorem Positioned.frontier_eq (h : a.Positioned base limit cursor) (hlimit : limit < UInt32.size)
    (hbuffer : a.buffer = some u) (hs : a.pending = some s) :
    a.frontier cursor = max base u.base.toNat := by
  simp only [frontier, pendingFrom_of_pending hbuffer hs, Option.map_some, Option.getD_some]
  exact (h.pending u s hbuffer hs).toNat_start hlimit

theorem Positioned.frontier_le (h : a.Positioned base limit cursor) (hlimit : limit < UInt32.size) :
    base ≤ a.frontier cursor ∧ a.frontier cursor ≤ cursor := by
  obtain hnothing | ⟨u, s, hbuffer, hs⟩ := h.coherent.nothingPending_or_pending
  · rw [frontier_of_nothing hnothing]
    exact ⟨h.base_le, Nat.le_refl cursor⟩
  · have hspans := h.pending u s hbuffer hs
    have hstart := hspans.start
    have hle := hspans.start_le
    rw [h.frontier_eq hlimit hbuffer hs]
    omega

/-- With nothing pending, all that matters is where the cursor is. -/
theorem positioned_of_nothing (haligned : a.Aligned) (hnothing : a.NothingPending)
    (hbase : base ≤ cursor) (hlimit : cursor ≤ limit)
    (hcursor : cursor = base ∨ page ∣ cursor ∨ cursor = limit) :
    a.Positioned base limit cursor where
  aligned := haligned
  base_le := hbase
  le_limit := hlimit
  coherent := hnothing.coherent
  pending u s hbuffer hs := by simp [hnothing.eq_none] at hs
  nothing _ := hcursor

/-- The cursor can go back over pending bytes. -/
theorem Positioned.rewind (h : a.Positioned base limit cursor) (hlimit : limit < UInt32.size)
    {start : UInt32} (hstart : a.pendingFrom = some start) {address : Nat}
    (hlow : start.toNat ≤ address) (hhigh : address ≤ cursor) :
    a.Positioned base limit address ∧ a.frontier address = a.frontier cursor := by
  obtain hnothing | ⟨u, s, hbuffer, hs⟩ := h.coherent.nothingPending_or_pending
  · simp [pendingFrom_of_nothing hnothing] at hstart
  · have hspans := h.pending u s hbuffer hs
    have hfrom := hspans.toNat_start hlimit
    rw [pendingFrom_of_pending hbuffer hs, Option.some.injEq] at hstart
    rw [← hstart, hfrom] at hlow
    refine ⟨?_, by simp [frontier, pendingFrom_of_pending hbuffer hs]⟩
    constructor
    case aligned => exact h.aligned
    case base_le => omega
    case le_limit => exact Nat.le_trans hhigh h.le_limit
    case coherent => exact h.coherent
    case pending =>
      intro v t hbuffer' ht
      obtain rfl : u = v := Option.some.inj (hbuffer.symm.trans hbuffer')
      obtain rfl : s = t := Option.some.inj (hs.symm.trans ht)
      exact { hspans with
        start_le := by rw [hspans.start]; exact hlow
        cursor_le := Nat.le_trans hhigh hspans.cursor_le }
    case nothing =>
      intro hnothing
      simp [hnothing.eq_none] at hs

/-! ### Committing and taking up units -/

open Attempt

variable {key : Aes256.Key} {chip : NorFlash σ} {board : Board σ}
variable {P : Nat → Board σ → Prop} {Halted : Nat → Nat → UpdateError → Board σ → Prop}

/-- The assembly is positioned at the cursor, and the property holds at its frontier. -/
def TracksAt (base limit : Nat) (P : Nat → Board σ → Prop) (cursor : Nat)
    (st : Assembly page × Board σ) : Prop :=
  st.1.Positioned base limit cursor ∧ P (st.1.frontier cursor) st.2

/-- A call was refused, and nothing is pending any more. -/
def HaltsAt (base limit : Nat) (Halted : Nat → Nat → UpdateError → Board σ → Prop)
    (err : UpdateError) (cursor : Nat) (st : Assembly page × Board σ) : Prop :=
  st.1.NothingPending ∧ st.1.Positioned base limit cursor ∧
    ∃ frontier, Halted frontier cursor err st.2

/-- What is pending reaches the end of its unit or of the range, and the cursor is there. -/
def Ripe (limit cursor : Nat) (a : Assembly page) : Prop :=
  ∀ u s, a.buffer = some u → a.pending = some s → cursor = min (u.base.toNat + page) limit

/-- At the end of a unit or of the range, nothing needs to be pending. -/
theorem Positioned.of_ripe (h : a.Positioned base limit cursor) (hbuffer : a.buffer = some u)
    (hcursor : cursor = min (u.base.toNat + page) limit) {a' : Assembly page}
    (haligned : a'.Aligned) (hnothing : a'.NothingPending) : a'.Positioned base limit cursor := by
  apply positioned_of_nothing haligned hnothing h.base_le h.le_limit
  rcases Nat.le_total (u.base.toNat + page) limit with hinside | houtside
  · rw [Nat.min_eq_left hinside] at hcursor
    rw [hcursor]
    exact Or.inr (Or.inl (Nat.dvd_add (h.aligned u hbuffer) (Nat.dvd_refl page)))
  · rw [Nat.min_eq_right houtside] at hcursor
    exact Or.inr (Or.inr hcursor)

theorem length_spanBytes_of_ripe (h : u.Spans base limit cursor s)
    (hcursor : cursor = min (u.base.toNat + page) limit) :
    (u.spanBytes s).length = min (u.base.toNat + page) limit - max base u.base.toNat := by
  have hstart := h.start
  have hstop := h.stop_le
  have hpage := h.stop_le_page
  have hend := h.cursor_le
  rw [u.length_spanBytes]
  omega

theorem commit_tracks (tracks : Board.Tracks chip page base limit P Halted)
    (hfits : page < UInt32.size) (hlimit : limit < UInt32.size)
    (h : TracksAt base limit P cursor (a, board)) (hripe : a.Ripe limit cursor) :
    (commit key chip).Yields (a, board)
      (fun _ st => st.1.NothingPending ∧ TracksAt base limit P cursor st)
      fun err st => HaltsAt base limit Halted err cursor st := by
  obtain ⟨hpositioned, hP⟩ := h
  obtain hnothing | ⟨u, s, hbuffer, hs⟩ := hpositioned.coherent.nothingPending_or_pending
  · exact (yields_commit_nothingPending hnothing).mpr ⟨hnothing, hpositioned, hP⟩
  · have hspans := hpositioned.pending u s hbuffer hs
    have haligned := hpositioned.aligned u hbuffer
    have hunit := hspans.isUnitOf haligned
    have hcursor := hripe u s hbuffer hs
    simp only [hpositioned.frontier_eq hlimit hbuffer hs] at hP
    have hhalts {a' : Assembly page} {err : UpdateError} {board' : Board σ}
        (hhalted : Halted (max base u.base.toNat) (min (u.base.toNat + page) limit) err board') :
        HaltsAt base limit Halted err cursor (a'.discard, board') :=
      ⟨nothingPending_discard a', hpositioned.of_ripe hbuffer hcursor (aligned_discard a')
        (nothingPending_discard a'), _, hcursor ▸ hhalted⟩
    rw [yields_commit_pending hbuffer hs]
    cases hdecrypt : Chain.decrypt? key a.vector (u.spanBytes s) with
    | none =>
        apply hhalts
        refine tracks.unaligned hunit ?_ hP
        have hpos := hunit.nonempty
        simp only [Chain.decrypt?, length_spanBytes_of_ripe hspans hcursor, ite_eq_left_iff,
          reduceCtorEq, imp_false, Decidable.not_not] at hdecrypt
        exact hdecrypt.resolve_left (by omega)
    | some decrypted =>
        obtain ⟨plain, vector⟩ := decrypted
        simp only [yields_program]
        cases hadd : Address.add? (u.settle s plain).base (UInt32.ofNat page) with
        | none =>
            apply hhalts
            refine tracks.beyond hunit ?_ hP
            rwa [Address.add?_eq_none_iff, UInt32.toNat_ofNat_of_lt' hfits] at hadd
        | some stop =>
            rw [Address.add?_eq_some_iff, UInt32.toNat_ofNat_of_lt' hfits] at hadd
            refine (tracks.program (u := u.settle s plain) hunit hadd.symm hP).mono
              (fun _ board' hP' => ?_) fun err board' hhalted => hhalts hhalted
            have hsettled : ({ a.settled with buffer := some (u.settle s plain), vector } :
                Assembly page).NothingPending := rfl
            refine ⟨hsettled, hpositioned.of_ripe hbuffer hcursor ?_ hsettled, ?_⟩
            · rintro v ⟨⟩
              exact haligned
            · rw [frontier_of_nothing hsettled, hcursor]
              exact hP'

/-- Another unit is taken up only once the cursor is past the buffered one. -/
theorem Positioned.ripe_of_left (h : a.Positioned base limit cursor) (hfits : page < UInt32.size)
    (hlt : cursor < limit) {address : UInt32} (hcursor : address.toNat = cursor)
    (hleft : a.base? ≠ some (Address.unitBase page address)) : a.Ripe limit cursor := by
  intro u s hbuffer hs
  have hspans := h.pending u s hbuffer hs
  have hstart := hspans.start_le
  have hend := hspans.cursor_le
  have hpage := hspans.stop_le_page
  have hstop := hspans.stop_le
  have hbeyond : u.base.toNat + page ≤ cursor := by
    by_contra hinside
    apply hleft
    rw [Address.unitBase_eq hfits (h.aligned u hbuffer) (by omega) (by omega), base?, hbuffer]
    rfl
  omega

theorem isUnitOf_unitBase (hpos : 0 < page) (hfits : page < UInt32.size) {address : UInt32}
    (hbase : base ≤ address.toNat) (hlimit : address.toNat < limit) :
    IsUnitOf page base limit (Address.unitBase page address).toNat := by
  have hcontains := Address.unitBase_contains hpos hfits address
  refine ⟨?_, by omega⟩
  rw [Address.toNat_unitBase hfits]
  exact Nat.dvd_sub_mod address.toNat

theorem seek_tracks (tracks : Board.Tracks chip page base limit P Halted) (hpos : 0 < page)
    (hfits : page < UInt32.size) (hlimit : limit < UInt32.size) {address : UInt32}
    (h : TracksAt base limit P address.toNat (a, board)) (hlt : address.toNat < limit) :
    (seek key chip address).Yields (a, board)
      (fun _ st => TracksAt base limit P address.toNat st ∧
        st.1.base? = some (Address.unitBase page address))
      fun err st => HaltsAt base limit Halted err address.toNat st := by
  have hunit := isUnitOf_unitBase hpos hfits h.1.base_le hlt
  rw [yields_seek]
  refine ⟨fun hthere => ⟨h, hthere⟩, fun hleft => ?_⟩
  refine (commit_tracks tracks hfits hlimit h (h.1.ripe_of_left hfits hlt rfl hleft)).mono
    (fun _ st hst => ?_) fun _ _ hhalts => hhalts
  obtain ⟨a', board'⟩ := st
  obtain ⟨hnothing, hpositioned, hP⟩ := hst
  have hrest {a'' : Assembly page} (haligned : a''.Aligned) (hnothing' : a''.NothingPending) :
      a''.Positioned base limit address.toNat :=
    positioned_of_nothing haligned hnothing' hpositioned.base_le hpositioned.le_limit
      (hpositioned.nothing hnothing)
  simp only [frontier_of_nothing hnothing] at hP
  rw [yields_load]
  refine (tracks.read hunit hP).mono (fun bytes board'' hP' => ?_) fun err board'' hhalted => ?_
  · have hloaded : ({ a' with buffer := some ⟨Address.unitBase page address, bytes⟩ } :
        Assembly page).NothingPending := hnothing
    refine ⟨⟨hrest ?_ hloaded, ?_⟩, rfl⟩
    · rintro v ⟨⟩
      exact hunit.aligned
    · rw [frontier_of_nothing hloaded]
      exact hP'
  · exact ⟨hnothing, hrest (aligned_release a') hnothing, _, hhalted⟩

/-! ### Laying bytes in at the cursor -/

theorem toNat_offset {address : UInt32} (hle : u.base.toNat ≤ address.toNat) :
    (address - u.base).toNat = address.toNat - u.base.toNat :=
  UInt32.toNat_sub_of_le _ _ (UInt32.le_iff_toNat_le.mpr hle)

/-- Bytes laid in where nothing is pending begin with the range or with the unit. -/
theorem Positioned.start_of_nothing (h : a.Positioned base limit cursor)
    (hnothing : a.NothingPending) (hbuffer : a.buffer = some u)
    (hinside : u.base.toNat ≤ cursor ∧ cursor < u.base.toNat + page) (hlt : cursor < limit) :
    cursor = max base u.base.toNat := by
  have hbase := h.base_le
  rcases h.nothing hnothing with hstart | hunit | hend
  · omega
  · have hsub := Nat.eq_zero_of_dvd_of_lt (Nat.dvd_sub hunit (h.aligned u hbuffer)) (by omega)
    omega
  · omega

/-- Bytes laid in at the cursor extend the pending span, or begin one at the cursor. -/
theorem Positioned.spans_insert (h : a.Positioned base limit cursor) (hbuffer : a.buffer = some u)
    {address : UInt32} (hcursor : address.toNat = cursor)
    (hinside : u.base.toNat ≤ cursor ∧ cursor < u.base.toNat + page) {bytes : Bytes}
    (hpos : 0 < bytes.length) (hend : cursor + bytes.length ≤ limit) :
    (u.insert address bytes).Spans base limit (cursor + u.room address bytes.length)
      (Span.extend a.pending (u.spanAt address bytes.length)) := by
  have hoffset : (address - u.base).toNat = cursor - u.base.toNat := by
    rw [toNat_offset (by omega), hcursor]
  have hroom : u.room address bytes.length =
      min bytes.length (page - (cursor - u.base.toNat)) := by
    rw [UnitBuffer.room, hoffset]
  have hnonempty := hinside.2
  cases hs : a.pending with
  | none =>
      have hstart := h.start_of_nothing hs hbuffer hinside (by omega)
      constructor <;> simp only [UnitBuffer.base_insert, Span.extend, UnitBuffer.spanAt] <;> omega
  | some s =>
      have hspans := h.pending u s hbuffer hs
      have hstart := hspans.start
      have hle := hspans.start_le
      have hreach := hspans.cursor_le
      have hpage := hspans.stop_le_page
      have hstop := hspans.stop_le
      constructor <;>
        simp only [UnitBuffer.base_insert, Span.extend, Span.hull, UnitBuffer.spanAt] <;> omega

/-- At least one byte is taken, and no byte before the frontier comes to be pending. -/
theorem insert_positioned (hpos : 0 < page) (hfits : page < UInt32.size)
    (hlimit : limit < UInt32.size) (h : a.Positioned base limit cursor) {address : UInt32}
    (hcursor : address.toNat = cursor)
    (hthere : a.base? = some (Address.unitBase page address)) {bytes : Bytes}
    (hbytes : 0 < bytes.length) (hend : cursor + bytes.length ≤ limit) :
    (insert address bytes : Attempt (Assembly page × Board σ) Nat).Yields (a, board)
      (fun taken st => st.2 = board ∧ 0 < taken ∧ taken ≤ bytes.length ∧
        st.1.Positioned base limit (cursor + taken) ∧
        st.1.frontier (cursor + taken) = a.frontier cursor)
      fun _ _ => False := by
  obtain ⟨u, hbuffer, hbase⟩ := Option.map_eq_some_iff.mp hthere
  have hunit := Address.unitBase_contains hpos hfits address
  rw [← hbase, hcursor] at hunit
  have hoffset : (address - u.base).toNat = address.toNat - u.base.toNat := toNat_offset (by omega)
  have hcontains : u.Contains address := UnitBuffer.contains_of_base hpos hbase
  have hroom := u.room_le address bytes.length
  have htaken : 0 < u.room address bytes.length := by
    rw [UnitBuffer.room]
    omega
  rw [yields_insert_of_contains hbuffer hcontains]
  have hpositioned : (a.lay u address bytes).Positioned base limit
      (cursor + u.room address bytes.length) := by
    constructor
    case aligned =>
      rintro v ⟨⟩
      exact h.aligned u hbuffer
    case base_le =>
      have hle := h.base_le
      omega
    case le_limit => omega
    case coherent => exact fun _ _ => ⟨_, rfl⟩
    case pending =>
      rintro v t ⟨⟩ ⟨⟩
      exact h.spans_insert hbuffer hcursor hunit hbytes hend
    case nothing =>
      intro hnothing
      simp [NothingPending] at hnothing
  refine ⟨rfl, htaken, hroom.1, hpositioned, ?_⟩
  rw [hpositioned.frontier_eq hlimit rfl rfl, UnitBuffer.base_insert]
  obtain hnothing | ⟨v, s, hv, hs⟩ := h.coherent.nothingPending_or_pending
  · rw [frontier_of_nothing hnothing, h.start_of_nothing hnothing hbuffer hunit (by omega)]
  · obtain rfl : u = v := Option.some.inj (hbuffer.symm.trans hv)
    exact (h.frontier_eq hlimit hbuffer hs).symm

end Assembly

end FirmwareUpdate
