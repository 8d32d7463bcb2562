import FirmwareUpdate.Proofs.Mirror
import FirmwareUpdate.Proofs.Stream

/-!
# Delivering ciphertext

A delivery is ciphertext for a range of flash. At any time a front part of it is programmed, decrypted,
and what was received after that part is pending in the buffered unit, at least as far as the cursor.
Taking up units, laying bytes in and committing preserve this, unless a unit cannot be programmed: then
what was pending is lost.
-/

namespace FirmwareUpdate

variable {page : Nat} {σ : Type}

/-- Ciphertext for a range of flash: what it is chained after, and what it is laid over. -/
structure Delivery where
  key : Aes256.Key
  vector : Block
  base : UInt32
  ciphertext : Bytes
  before : FlashContent

namespace Delivery

/-- Flash once the first bytes have been programmed. -/
def contentAfter (d : Delivery) (count : Nat) : FlashContent :=
  d.before.lay d.base.toNat (Chain.plaintext d.key d.vector (d.ciphertext.take count))

def vectorAfter (d : Delivery) (count : Nat) : Block :=
  Chain.nextVector d.vector (d.ciphertext.take count)

def limit (d : Delivery) : Nat := d.base.toNat + d.ciphertext.length

/-- Units, the range and its ends are whole blocks, and the last unit that the range overlaps ends
within the address space. -/
structure Fits (d : Delivery) (page : Nat) : Prop where
  pos : 0 < page
  unit : page % Block.size = 0
  base : d.base.toNat % Block.size = 0
  length : d.ciphertext.length % Block.size = 0
  last : (d.limit - 1) / page * page + page < UInt32.size

/-- The range is whole blocks of the address space. -/
structure Lies (d : Delivery) : Prop where
  base : d.base.toNat % Block.size = 0
  length : d.ciphertext.length % Block.size = 0
  limit_lt : d.limit < UInt32.size

/-- The pending span continues the bytes programmed, at least as far as the cursor. -/
structure Covers (d : Delivery) (count cursor : Nat) (u : UnitBuffer page) (s : Span) : Prop where
  start : u.base.toNat + s.start = d.base.toNat + count
  nonempty : s.start < s.stop
  stop_le_page : s.stop ≤ page
  count_le : d.base.toNat + count ≤ cursor
  cursor_le : cursor ≤ u.base.toNat + s.stop
  stop_le_limit : u.base.toNat + s.stop ≤ d.limit
  bytes : ∀ i (h : i < page), s.start ≤ i → i < s.stop →
    d.ciphertext[u.base.toNat + i - d.base.toNat]? = some u.bytes[i]

/-- `count` bytes of the delivery are programmed, and those after them up to the cursor at least are
pending. -/
structure Stands (d : Delivery) (count cursor : Nat) (a : Assembly page) (content : FlashContent) :
    Prop where
  whole : count % Block.size = 0
  content_eq : content = d.contentAfter count
  vector_eq : a.vector = d.vectorAfter count
  mirrors : a.Mirrors content
  coherent : a.Coherent
  nothing : a.NothingPending → cursor = d.base.toNat + count
  pending : ∀ u s, a.buffer = some u → a.pending = some s → d.Covers count cursor u s

variable {d : Delivery} {count cursor : Nat} {a : Assembly page} {content : FlashContent}
variable {u : UnitBuffer page} {s : Span}

theorem Fits.page_lt (h : d.Fits page) : page < UInt32.size := by
  have hlast := h.last
  omega

theorem Stands.le_cursor (h : d.Stands count cursor a content) :
    d.base.toNat + count ≤ cursor := by
  obtain hnothing | ⟨u, s, hbuffer, hs⟩ := h.coherent.nothingPending_or_pending
  · exact Nat.le_of_eq (h.nothing hnothing).symm
  · exact (h.pending u s hbuffer hs).count_le

/-- A unit that the range reaches ends within the address space. -/
theorem Fits.unit_lt (h : d.Fits page) {base : Nat} (haligned : page ∣ base)
    (hlt : base < d.limit) : base + page < UInt32.size := by
  obtain ⟨k, rfl⟩ := haligned
  have hk : k ≤ (d.limit - 1) / page := by
    rw [Nat.le_div_iff_mul_le h.pos, Nat.mul_comm]
    omega
  calc
    page * k + page ≤ page * ((d.limit - 1) / page) + page :=
      Nat.add_le_add_right (Nat.mul_le_mul_left page hk) page
    _ = (d.limit - 1) / page * page + page := by rw [Nat.mul_comm]
    _ < UInt32.size := h.last

theorem Covers.lt_limit (h : d.Covers count cursor u s) : u.base.toNat < d.limit := by
  have := h.nonempty
  have := h.stop_le_limit
  omega

theorem Covers.count_le_length (h : d.Covers count cursor u s) :
    count + s.length ≤ d.ciphertext.length := by
  have := h.start
  have := h.nonempty
  have := h.stop_le_limit
  simp only [limit, Span.length] at *
  omega

/-- The pending bytes are those of the ciphertext that follow the bytes programmed. -/
theorem Covers.spanBytes_eq (h : d.Covers count cursor u s) :
    u.spanBytes s = (d.ciphertext.drop count).take s.length := by
  have hstart := h.start
  have hpage := h.stop_le_page
  apply List.ext_getElem?
  intro i
  simp only [UnitBuffer.spanBytes, Bytes.slice, List.getElem?_take, List.getElem?_drop, Span.length]
  by_cases hi : i < s.stop - s.start
  · have hbyte := h.bytes (s.start + i) (by omega) (by omega) (by omega)
    have hindex : u.base.toNat + (s.start + i) - d.base.toNat = count + i := by omega
    rw [hindex] at hbyte
    simp [hi, hbyte, show s.start + i < page by omega]
  · simp [hi]

theorem Covers.length_spanBytes (h : d.Covers count cursor u s) :
    (u.spanBytes s).length = s.length := by
  have hpage := h.stop_le_page
  rw [u.length_spanBytes, Span.length]
  omega

@[simp] theorem contentAfter_zero (d : Delivery) : d.contentAfter 0 = d.before := by
  simp [contentAfter]

@[simp] theorem vectorAfter_zero (d : Delivery) : d.vectorAfter 0 = d.vector := by
  simp [vectorAfter]

/-- Before any of its bytes a delivery stands at its base. -/
theorem stands_zero (d : Delivery) (hnothing : a.NothingPending) (hvector : a.vector = d.vector)
    (hcontent : content = d.before) (hmirrors : a.Mirrors content) :
    d.Stands 0 d.base.toNat a content where
  whole := rfl
  content_eq := by rw [contentAfter_zero, hcontent]
  vector_eq := by rw [vectorAfter_zero, hvector]
  mirrors := hmirrors
  coherent := hnothing.coherent
  nothing _ := rfl
  pending u s hbuffer hs := by simp [hnothing.eq_none] at hs

/-! ### Programming the pending bytes -/

open Attempt

variable {chip : NorFlash σ} {view : NorFlash.View σ} {board : Board σ}

/-- The bytes that follow the first ones are decrypted and laid after them. -/
theorem contentAfter_add (hwhole : count % Block.size = 0) {more : Nat}
    (hle : count + more ≤ d.ciphertext.length) :
    d.contentAfter (count + more) =
      (d.contentAfter count).lay (d.base.toNat + count)
        (Chain.plaintext d.key (d.vectorAfter count) ((d.ciphertext.drop count).take more)) := by
  have hfront : (d.ciphertext.take count).length = count := by
    rw [List.length_take]
    omega
  have hlength : (Chain.plaintext d.key d.vector (d.ciphertext.take count)).length = count := by
    rw [Chain.length_plaintext _ _ (by rw [hfront]; exact hwhole), hfront]
  rw [contentAfter, List.take_add, Chain.plaintext_append (by rw [hfront]; exact hwhole),
    FlashContent.lay_append, hlength]
  rfl

theorem vectorAfter_add (hwhole : count % Block.size = 0) {more : Nat}
    (hle : count + more ≤ d.ciphertext.length) :
    d.vectorAfter (count + more) =
      Chain.nextVector (d.vectorAfter count) ((d.ciphertext.drop count).take more) := by
  have hfront : (d.ciphertext.take count).length = count := by
    rw [List.length_take]
    omega
  rw [vectorAfter, List.take_add, Chain.nextVector_append (by rw [hfront]; exact hwhole)]
  rfl

/-- Once all of it is programmed its range holds the plaintext, and the rest of flash is as before. -/
theorem contentAfter_length (hlength : d.ciphertext.length % Block.size = 0) :
    (d.contentAfter d.ciphertext.length).peek d.base.toNat d.ciphertext.length =
        Chain.plaintext d.key d.vector d.ciphertext ∧
      ∀ x, x < d.base.toNat ∨ d.limit ≤ x → d.contentAfter d.ciphertext.length x = d.before x := by
  have hplain := Chain.length_plaintext d.key d.vector hlength
  rw [contentAfter, List.take_length]
  refine ⟨?_, fun x hx => FlashContent.lay_outside (by rw [hplain]; exact hx)⟩
  rw [← hplain]
  exact FlashContent.peek_lay

/-- The rest of a delivery from an address of its range on, laid over what flash holds by then. -/
def tail (d : Delivery) (address : UInt32) (before : FlashContent) : Delivery where
  key := d.key
  vector := d.vectorAfter (address.toNat - d.base.toNat)
  base := address
  ciphertext := d.ciphertext.drop (address.toNat - d.base.toNat)
  before := before

/-- Bytes of the ciphertext that are delivered again are laid where they were. -/
theorem contentAfter_tail {address : UInt32} {offset start more : Nat}
    (haddress : address.toNat = d.base.toNat + offset) (hoffset : offset % Block.size = 0)
    (hle : offset ≤ start) (hstart : start % Block.size = 0) (hlength : start ≤ d.ciphertext.length)
    (hmore : more % Block.size = 0) (hend : offset + more ≤ d.ciphertext.length) :
    (d.tail address (d.contentAfter start)).contentAfter more =
      d.contentAfter (max start (offset + more)) := by
  have hsub : address.toNat - d.base.toNat = offset := by omega
  let rest (count : Nat) :=
    Chain.plaintext d.key (d.vectorAfter offset) ((d.ciphertext.drop offset).take count)
  have hlaid {count : Nat} (hcount : offset + count ≤ d.ciphertext.length) :
      d.contentAfter (offset + count) = (d.contentAfter offset).lay address.toNat (rest count) := by
    rw [haddress]
    exact contentAfter_add hoffset hcount
  have hprefix {count : Nat} (more : Nat) (hcount : count % Block.size = 0)
      (hend : offset + count ≤ d.ciphertext.length) : ∃ ys, rest (count + more) = rest count ++ ys := by
    have hfront : ((d.ciphertext.drop offset).take count).length % Block.size = 0 := by
      rw [List.length_take, List.length_drop, Nat.min_eq_left (by omega)]
      exact hcount
    simp only [rest, List.take_add, Chain.plaintext_append hfront]
    exact ⟨_, rfl⟩
  have htail : (d.tail address (d.contentAfter start)).contentAfter more =
      (d.contentAfter start).lay address.toNat (rest more) := by
    simp only [contentAfter, tail, hsub, rest]
  obtain ⟨count, rfl⟩ := Nat.exists_eq_add_of_le hle
  have hcount : count % Block.size = 0 := by
    simp only [Block.size] at hoffset hstart ⊢
    omega
  rw [htail, hlaid hlength]
  rcases Nat.le_total count more with hshort | hlong
  · obtain ⟨k, rfl⟩ := Nat.exists_eq_add_of_le hshort
    obtain ⟨ys, hys⟩ := hprefix k hcount hlength
    rw [Nat.max_eq_right (by omega), hlaid hend, hys, FlashContent.lay_lay_append]
  · obtain ⟨k, rfl⟩ := Nat.exists_eq_add_of_le hlong
    obtain ⟨ys, hys⟩ := hprefix k hmore hend
    rw [Nat.max_eq_left (by omega), hlaid hlength, hys, FlashContent.lay_append_lay]

/-- A pending span that ends with a block is whole blocks. -/
theorem Covers.spanBytes_whole (h : d.Covers count cursor u s) (hwhole : count % Block.size = 0)
    (hblocks : (count + s.length) % Block.size = 0) : (u.spanBytes s).length % Block.size = 0 := by
  rw [h.length_spanBytes]
  simp only [Block.size] at hwhole hblocks ⊢
  omega

/-- Programming the unit with its pending bytes decrypted lays them after those programmed. -/
theorem Stands.lay_pending (h : d.Stands count cursor a content) (hbuffer : a.buffer = some u)
    (hs : a.pending = some s) (hblocks : (count + s.length) % Block.size = 0) :
    content.lay u.base.toNat
        (u.settle s (Chain.plaintext d.key a.vector (u.spanBytes s))).bytes.toList =
      d.contentAfter (count + s.length) := by
  have hcovers := h.pending u s hbuffer hs
  have hnonempty := hcovers.nonempty
  have hplain := Chain.length_plaintext d.key a.vector (hcovers.spanBytes_whole h.whole hblocks)
  have hstop : s.start + (Chain.plaintext d.key a.vector (u.spanBytes s)).length = s.stop := by
    rw [hplain, hcovers.length_spanBytes, Span.length]
    omega
  calc
    content.lay u.base.toNat
          (u.settle s (Chain.plaintext d.key a.vector (u.spanBytes s))).bytes.toList
        = content.lay (u.base.toNat + s.start)
            (Chain.plaintext d.key a.vector (u.spanBytes s)) :=
          UnitBuffer.lay_settle (hs ▸ (h.mirrors u hbuffer).2) hstop hcovers.stop_le_page
    _ = (d.contentAfter count).lay (d.base.toNat + count)
            (Chain.plaintext d.key (d.vectorAfter count)
              ((d.ciphertext.drop count).take s.length)) := by
          rw [hcovers.start, h.vector_eq, hcovers.spanBytes_eq, h.content_eq]
    _ = d.contentAfter (count + s.length) :=
          (contentAfter_add h.whole hcovers.count_le_length).symm

/-- Once the unit is programmed, the delivery stands at the end of what was pending. -/
theorem Stands.settle (h : d.Stands count cursor a content) (hbuffer : a.buffer = some u)
    (hs : a.pending = some s) (hcursor : cursor = u.base.toNat + s.stop)
    (hblocks : (count + s.length) % Block.size = 0) :
    d.Stands (count + s.length) cursor
      { a.settled with
        buffer := some (u.settle s (Chain.plaintext d.key a.vector (u.spanBytes s)))
        vector := Chain.nextVector a.vector (u.spanBytes s) }
      (content.lay u.base.toNat
        (u.settle s (Chain.plaintext d.key a.vector (u.spanBytes s))).bytes.toList) := by
  have hcovers := h.pending u s hbuffer hs
  constructor
  case whole => exact hblocks
  case content_eq => exact h.lay_pending hbuffer hs hblocks
  case vector_eq =>
    rw [vectorAfter_add h.whole hcovers.count_le_length, ← hcovers.spanBytes_eq, ← h.vector_eq]
  case mirrors =>
    rintro u' ⟨⟩
    exact ⟨(h.mirrors u hbuffer).1, UnitBuffer.mirrors_lay⟩
  case coherent =>
    exact Assembly.NothingPending.coherent rfl
  case nothing =>
    intro _
    have hstart := hcovers.start
    have hnonempty := hcovers.nonempty
    simp only [Span.length]
    omega
  case pending =>
    rintro u' s' ⟨⟩ hs'
    simp at hs'

/-- What was pending is lost, because an erasing or programming call failed or because units do not fit
the range. -/
def Loses (d : Delivery) (page : Nat) (err : UpdateError) (board : Board σ) : Prop :=
  err.Interrupts ∧ ¬board.ReadFailed ∧ (board.Failed ∨ ¬d.Fits page)

/-- Once the pending bytes reach the cursor, committing programs them all or loses them. -/
theorem commit_stands (honest : chip.Honest view) (hpage : page < UInt32.size)
    (sound : view.Sound board.flash) (hreads : ¬board.ReadFailed)
    (h : d.Stands count cursor a (view.content board.flash))
    (hfull : ∀ u s, a.buffer = some u → a.pending = some s →
      cursor = u.base.toNat + s.stop ∧ (d.Fits page → (cursor - d.base.toNat) % Block.size = 0)) :
    (Assembly.commit d.key chip).Yields (a, board)
      (fun _ st => view.Sound st.2.flash ∧ ¬st.2.ReadFailed ∧ st.1.NothingPending ∧
        d.Stands (cursor - d.base.toNat) cursor st.1 (view.content st.2.flash))
      fun err st => d.Loses page err st.2 := by
  have hkept : (Assembly.commit d.key chip).Yields (a, board) (fun _ st => ¬st.2.ReadFailed)
      fun _ st => ¬st.2.ReadFailed :=
    Assembly.commit_keeps (Board.erase_keeps_not_readFailed chip)
      (Board.write_keeps_not_readFailed chip) (a, board) hreads
  suffices hcommits : (Assembly.commit d.key chip).Yields (a, board)
      (fun _ st => view.Sound st.2.flash ∧ st.1.NothingPending ∧
        d.Stands (cursor - d.base.toNat) cursor st.1 (view.content st.2.flash))
      fun err st => err.Interrupts ∧ (st.2.Failed ∨ ¬d.Fits page) from
    (hkept.and hcommits).mono (fun _ _ hst => ⟨hst.2.1, hst.1, hst.2.2⟩)
      fun _ _ hst => ⟨hst.2.1, hst.1, hst.2.2⟩
  obtain hnothing | ⟨u, s, hbuffer, hs⟩ := h.coherent.nothingPending_or_pending
  · rw [Assembly.yields_commit_nothingPending hnothing]
    have hcursor := h.nothing hnothing
    have hcount : cursor - d.base.toNat = count := by omega
    rw [hcount]
    exact ⟨sound, hnothing, h⟩
  · have hcovers := h.pending u s hbuffer hs
    obtain ⟨hcursor, hblocks⟩ := hfull u s hbuffer hs
    have hstart := hcovers.start
    have hnonempty := hcovers.nonempty
    have hlength := hcovers.length_spanBytes
    have hcount : cursor - d.base.toNat = count + s.length := by
      simp only [Span.length]
      omega
    have hpos : 0 < (u.spanBytes s).length := by
      rw [hlength, Span.length]
      omega
    rw [hcount] at hblocks ⊢
    rw [Assembly.yields_commit_pending hbuffer hs]
    by_cases hwhole : (count + s.length) % Block.size = 0
    · rw [Chain.decrypt?_of_blocks hpos (hcovers.spanBytes_whole h.whole hwhole)]
      refine Assembly.yields_program_honest honest sound hpage
        (fun board' hsound hcontent => ⟨hsound, rfl, ?_⟩)
        fun e board' _ hfailed => ⟨trivial, hfailed.imp_right fun ⟨hbeyond, _⟩ hfits => ?_⟩
      · rw [hcontent]
        exact h.settle hbuffer hs hcursor hwhole
      · have hunit := hfits.unit_lt (h.mirrors u hbuffer).1 hcovers.lt_limit
        simp only [UnitBuffer.settle] at hbeyond
        omega
    · have hpart : (u.spanBytes s).length % Block.size ≠ 0 := by
        have hfront := h.whole
        rw [hlength]
        simp only [Block.size] at hfront hwhole ⊢
        omega
      rw [Chain.decrypt?, if_pos (Or.inr hpart)]
      exact ⟨trivial, Or.inr fun hfits => hwhole (hblocks hfits)⟩

/-! ### Taking up the unit at the cursor -/

/-- Once a unit is taken up with nothing pending, the delivery stands where it stood. -/
theorem Stands.load {a' : Assembly page} (h : d.Stands count cursor a content)
    (hnothing : a.NothingPending) (hvector : a'.vector = a.vector) (hnothing' : a'.NothingPending)
    (hmirrors : a'.Mirrors content) : d.Stands count cursor a' content where
  whole := h.whole
  content_eq := h.content_eq
  vector_eq := hvector.trans h.vector_eq
  mirrors := hmirrors
  coherent := hnothing'.coherent
  nothing _ := h.nothing hnothing
  pending u s hbuffer hs := by simp [hnothing'.eq_none] at hs

/-- A unit is left only once it is full, so what is pending in it ends with a block if units are whole
blocks. -/
theorem Stands.full_of_left (hpage : page < UInt32.size) (h : d.Stands count cursor a content)
    {address : UInt32} (hcursor : address.toNat = cursor)
    (hleft : a.base? ≠ some (Address.unitBase page address)) (hbuffer : a.buffer = some u)
 (hs : a.pending = some s) :
    cursor = u.base.toNat + s.stop ∧ (d.Fits page → (cursor - d.base.toNat) % Block.size = 0) := by
  have hcovers := h.pending u s hbuffer hs
  obtain ⟨haligned, _⟩ := h.mirrors u hbuffer
  have hstart := hcovers.start
  have hbehind := hcovers.count_le
  have hbeyond : u.base.toNat + page ≤ cursor := by
    by_contra hinside
    apply hleft
    rw [Address.unitBase_eq hpage haligned (by omega) (by omega), Assembly.base?, hbuffer]
    rfl
  have hstop := hcovers.stop_le_page
  have hle := hcovers.cursor_le
  refine ⟨by omega, fun hfits => ?_⟩
  have hunit : u.base.toNat % Block.size = 0 :=
    Nat.mod_eq_zero_of_dvd (Nat.dvd_trans (Nat.dvd_of_mod_eq_zero hfits.unit) haligned)
  have hblocks := hfits.unit
  have hbase := hfits.base
  simp only [Block.size] at *
  omega

/-- A unit could not be read; what was received before stands. -/
def Pauses (view : NorFlash.View σ) (d : Delivery) (cursor : Nat) (err : UpdateError)
    (st : Assembly page × Board σ) : Prop :=
  err.Interrupts ∧ st.2.ReadFailed ∧ view.Sound st.2.flash ∧
    ∃ count, d.Stands count cursor st.1 (view.content st.2.flash)

theorem seek_stands (honest : chip.Honest view) (hpage : page < UInt32.size)
    (sound : view.Sound board.flash) (hreads : ¬board.ReadFailed)
    (h : d.Stands count cursor a (view.content board.flash)) {address : UInt32}
    (hcursor : address.toNat = cursor) :
    (Assembly.seek d.key chip address).Yields (a, board)
      (fun _ st => view.Sound st.2.flash ∧ ¬st.2.ReadFailed ∧
        st.1.base? = some (Address.unitBase page address) ∧
        ∃ count', d.Stands count' cursor st.1 (view.content st.2.flash))
      fun err st => d.Pauses view cursor err st ∨ d.Loses page err st.2 := by
  rw [Assembly.yields_seek]
  refine ⟨fun hthere => ⟨sound, hreads, hthere, count, h⟩, fun hleft => ?_⟩
  refine (commit_stands honest hpage sound hreads h fun u s hbuffer hs =>
    h.full_of_left hpage hcursor hleft hbuffer hs).mono (fun _ st hst => ?_)
    fun _ _ hloses => Or.inr hloses
  obtain ⟨a', board'⟩ := st
  obtain ⟨hsound, hreads', hnothing, hstands⟩ := hst
  refine Assembly.yields_load_honest honest hsound
    (fun u flash hsound' hcontent hbase hmirrors => ?_)
    fun e flash hsound' hcontent =>
      Or.inl ⟨trivial, ⟨_, _, e, Array.mem_push_self⟩, hsound', cursor - d.base.toNat, ?_⟩
  · refine ⟨hsound', Board.not_readFailed_push hreads' (by simp), congrArg some hbase,
      cursor - d.base.toNat, ?_⟩
    rw [hcontent]
    apply hstands.load hnothing
    · rfl
    · exact hnothing
    · rintro u' ⟨⟩
      rw [hbase, Address.toNat_unitBase hpage]
      exact ⟨Nat.dvd_sub_mod address.toNat, hmirrors.of_none _⟩
  · rw [hcontent]
    exact hstands.load hnothing rfl hnothing (Assembly.mirrors_release a')

/-! ### Laying bytes in at the cursor -/

/-- The bytes of a packet are those of the ciphertext from an address on. -/
def Agrees (d : Delivery) (address : Nat) (bytes : Bytes) : Prop :=
  ∀ i b, bytes[i]? = some b → d.ciphertext[address + i - d.base.toNat]? = some b

theorem Agrees.drop {address : Nat} {bytes : Bytes} (h : d.Agrees address bytes) (taken : Nat) :
    d.Agrees (address + taken) (bytes.drop taken) := by
  intro i b hb
  rw [List.getElem?_drop] at hb
  rw [Nat.add_assoc]
  exact h _ _ hb

/-- The new pending span continues the bytes programmed, and reaches at least as far as the old one. -/
theorem Stands.covers_insert (h : d.Stands count cursor a content) (hbuffer : a.buffer = some u)
    {address : UInt32} (hcursor : address.toNat = cursor)
    (hinside : u.base.toNat ≤ cursor ∧ cursor < u.base.toNat + page) {bytes : Bytes}
    (hpos : 0 < bytes.length) (hagrees : d.Agrees cursor bytes)
    (hend : cursor + bytes.length ≤ d.limit) {t : Span}
    (ht : Span.extend a.pending (u.spanAt address bytes.length) = t) :
    d.Covers count (cursor + u.room address bytes.length) (u.insert address bytes) t := by
  have hoffset : (address - u.base).toNat = cursor - u.base.toNat := by
    rw [UInt32.toNat_sub_of_le _ _ (UInt32.le_iff_toNat_le.mpr (by omega)), hcursor]
  have hroom : u.room address bytes.length =
      min bytes.length (page - (cursor - u.base.toNat)) := by
    rw [UnitBuffer.room, hoffset]
  have hbytes (i : Nat) (hi : i < page) (hlow : cursor ≤ u.base.toNat + i)
      (hhigh : u.base.toNat + i < cursor + u.room address bytes.length) :
      d.ciphertext[u.base.toNat + i - d.base.toNat]? = some (u.insert address bytes).bytes[i] := by
    rw [UnitBuffer.insert_getElem hi, dif_pos (by omega), List.get_eq_getElem]
    have hat := hagrees (i - (address - u.base).toNat) _ (List.getElem?_eq_getElem (by omega))
    rw [← hat]
    congr 1
    omega
  have hcount := h.le_cursor
  -- Up to `stop`, which the cursor does not pass, the bytes were pending before.
  have hold : ∃ stop, u.base.toNat + t.start = d.base.toNat + count ∧
      t.stop = max stop ((address - u.base).toNat + u.room address bytes.length) ∧
      cursor ≤ u.base.toNat + stop ∧ stop ≤ page ∧ u.base.toNat + stop ≤ d.limit ∧
      ∀ i (_ : i < page), t.start ≤ i → i < stop →
        d.ciphertext[u.base.toNat + i - d.base.toNat]? = some u.bytes[i] := by
    cases hs : a.pending with
    | none =>
        have hnothing := h.nothing hs
        simp only [hs, Span.extend, UnitBuffer.spanAt] at ht
        subst ht
        refine ⟨cursor - u.base.toNat, ?_, ?_, by omega, by omega, by omega, fun i _ hlow hhigh => ?_⟩
        · simp only
          omega
        · simp only
          omega
        · simp only at hlow
          omega
    | some s =>
        have hcovers := h.pending u s hbuffer hs
        have hstart := hcovers.start
        have hcursorLe := hcovers.cursor_le
        simp only [hs, Span.extend, Span.hull, UnitBuffer.spanAt] at ht
        subst ht
        simp only
        refine ⟨s.stop, by omega, rfl, hcursorLe, hcovers.stop_le_page, hcovers.stop_le_limit,
          fun i hi hlow hhigh => hcovers.bytes i hi (by omega) hhigh⟩
  obtain ⟨stop, hstart, hstop, hcursorLe, hpage, hlimit, hpending⟩ := hold
  refine ⟨hstart, by omega, by omega, by omega, ?_, ?_, fun i hi hlow hhigh => ?_⟩
  · rw [UnitBuffer.base_insert]
    omega
  · rw [UnitBuffer.base_insert]
    omega
  · rw [UnitBuffer.base_insert]
    by_cases hlaid : cursor ≤ u.base.toNat + i ∧
        u.base.toNat + i < cursor + u.room address bytes.length
    · exact hbytes i hi hlaid.1 hlaid.2
    · rw [UnitBuffer.insert_getElem hi, dif_neg (by omega)]
      exact hpending i hi hlow (by omega)

/-- Bytes that agree with the ciphertext are taken in order, at least one of them. -/
theorem insert_stands (hpos : 0 < page) (hpage : page < UInt32.size)
    (h : d.Stands count cursor a content)
    {address : UInt32} (hcursor : address.toNat = cursor)
    (hthere : a.base? = some (Address.unitBase page address)) {bytes : Bytes}
    (hbytes : 0 < bytes.length) (hagrees : d.Agrees cursor bytes)
    (hend : cursor + bytes.length ≤ d.limit) :
    (Assembly.insert address bytes : Attempt (Assembly page × Board σ) Nat).Yields (a, board)
      (fun taken st => st.2 = board ∧ 0 < taken ∧ taken ≤ bytes.length ∧
        d.Stands count (cursor + taken) st.1 content)
      fun _ _ => False := by
  obtain ⟨u, hbuffer, hbase⟩ := Option.map_eq_some_iff.mp hthere
  have hunit := Address.unitBase_contains hpos hpage address
  rw [← hbase, hcursor] at hunit
  have hle : u.base ≤ address := UInt32.le_iff_toNat_le.mpr (by omega)
  have hoffset : (address - u.base).toNat = cursor - u.base.toNat := by
    rw [UInt32.toNat_sub_of_le _ _ hle, hcursor]
  have hcontains : u.Contains address := UnitBuffer.contains_of_base hpos hbase
  rw [Assembly.yields_insert_of_contains hbuffer hcontains]
  have hroom : 0 < u.room address bytes.length := by
    rw [UnitBuffer.room]
    omega
  refine ⟨rfl, hroom, (u.room_le address bytes.length).1, ?_⟩
  refine ⟨h.whole, h.content_eq, h.vector_eq, ?_, fun _ _ => ⟨_, rfl⟩, fun hnothing => ?_, ?_⟩
  · rintro u' ⟨⟩
    exact ⟨(h.mirrors u hbuffer).1, (h.mirrors u hbuffer).2.insert address bytes⟩
  · simp [Assembly.NothingPending] at hnothing
  · rintro u' t ⟨⟩ ⟨⟩
    exact h.covers_insert hbuffer hcursor hunit hbytes hagrees hend rfl

end Delivery

end FirmwareUpdate
