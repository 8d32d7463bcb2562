import FirmwareUpdate.Proofs.Engine.Lifetime
import FirmwareUpdate.Proofs.Engine.Loss

/-!
# Resuming an interrupted update

`restart` and power cycles leave flash alone and lose what was pending. A peer that goes on from an address
up to which everything is programmed, with the ciphertext before it as chaining vector, lays the same bytes
again over those that were programmed already, so an update that was interrupted ends with the flash of
one that was not.
-/

namespace FirmwareUpdate

variable {page : Nat} {σ : Type} {config : Config} {chip : NorFlash σ} {view : NorFlash.View σ}

/-- What the ciphertext from an offset on is chained after: the sixteen bytes before it, or the first
vector. -/
def Chain.before (vector : Block) (ciphertext : Bytes) (offset : Nat) : Bytes :=
  if offset = 0 then vector.toList else (ciphertext.drop (offset - Block.size)).take Block.size

/-- The incident ends a transfer, whether or not it is complete. -/
def Incident.Interrupts : Incident → Prop
  | .packet a => ∃ p, a.packet.command? = some p ∧ p.command = .restart
  | .powerCycle => True

/-- What a peer has done since an update was interrupted. -/
inductive Stage where
  | interrupted
  /-- The chaining vector was announced. -/
  | announced
  /-- The chaining vector is that of the ciphertext for an address. -/
  | chained (address : UInt32)
  /-- A transfer from the address to the end of the range was begun. -/
  | sending (address : UInt32)

/-- A life in which ciphertext is sent for the range from `base` on. After each interruption the peer
resumes at an address of the range up to which everything was programmed. -/
inductive Snapshot.Resumes (config : Config) (chip : NorFlash σ) (s : Snapshot page σ) (base : UInt32)
    (ciphertext : Bytes) : Stage → List Incident → Prop where
  | start : Resumes config chip s base ciphertext (.chained base) []
  | interrupt {stage life incident} (before : Resumes config chip s base ciphertext stage life)
      (interrupts : incident.Interrupts) :
      Resumes config chip s base ciphertext .interrupted (life ++ [incident])
  | announce {life a} (before : Resumes config chip s base ciphertext .interrupted life)
      (accepted : ((s.live config chip life).exchange config chip a).Accepts .vector) :
      Resumes config chip s base ciphertext .announced (life ++ [.packet a])
  | chain {life a} {address : UInt32} (before : Resumes config chip s base ciphertext .announced life)
      (low : base.toNat ≤ address.toNat) (high : address.toNat < base.toNat + ciphertext.length)
      (aligned : (address.toNat - base.toNat) % Block.size = 0)
      (programmed : ∀ b, base.toNat ≤ b → b < address.toNat →
        ∃ x ∈ s.history config chip life, x.Programs b)
      (vector : a.packet = .data
        (Chain.before s.engine.assembly.vector ciphertext (address.toNat - base.toNat)))
      (accepted : ((s.live config chip life).exchange config chip a).answer = .ok ()) :
      Resumes config chip s base ciphertext (.chained address) (life ++ [.packet a])
  | begin {life a} {address : UInt32} {length : UInt16}
      (before : Resumes config chip s base ciphertext (.chained address) life)
      (begins : ((s.live config chip life).exchange config chip a).Begins address length)
      (rest : address.toNat + length.toNat = base.toNat + ciphertext.length) :
      Resumes config chip s base ciphertext (.sending address) (life ++ [.packet a])
  | send {life a} {address : UInt32}
      (before : Resumes config chip s base ciphertext (.sending address) life)
      (awaited : (s.live config chip life).engine.session.activity ≠ .idle)
      (suits : a.packet.Suits base ciphertext) :
      Resumes config chip s base ciphertext (.sending address) (life ++ [.packet a])

namespace Delivery

variable {d : Delivery} {address : UInt32}

/-- The peer knows the vector that any part of the ciphertext is chained after. -/
theorem toList_vectorAfter {offset : Nat} (hoffset : offset % Block.size = 0)
    (hle : offset ≤ d.ciphertext.length) :
    (d.vectorAfter offset).toList = Chain.before d.vector d.ciphertext offset := by
  rw [Chain.before]
  split
  · next hzero =>
      rw [hzero, vectorAfter_zero]
  · have hlength : (d.ciphertext.take offset).length = offset := by
      rw [List.length_take]
      omega
    have hsize : offset - (offset - Block.size) = Block.size := by
      simp only [Block.size] at hoffset ⊢
      omega
    rw [vectorAfter, Chain.toList_nextVector (by omega) (by rw [hlength]; exact hoffset), hlength,
      List.drop_take, hsize]

/-- What suits the ciphertext suits the rest of it. -/
theorem suits_tail {packet : Packet} (h : packet.Suits d.base d.ciphertext)
    (hlow : d.base.toNat ≤ address.toNat) (before : FlashContent) :
    packet.Suits (d.tail address before).base (d.tail address before).ciphertext := by
  cases packet with
  | control bytes => exact h
  | data bytes =>
      refine ⟨h.1, fun p hp i b hb hstart hstop => ?_⟩
      simp only [tail, List.length_drop] at hstart hstop ⊢
      rw [List.getElem?_drop,
        show address.toNat - d.base.toNat + (p.address.toNat + i - address.toNat) =
          p.address.toNat + i - d.base.toNat by omega]
      exact h.2 p hp i b hb (by omega) (by omega)

/-- Nothing but the bytes that were programmed is pending or before the cursor. -/
theorem Stands.frontier_eq {count cursor : Nat} {a : Assembly page} {content : FlashContent}
    (h : d.Stands count cursor a content) (hlimit : d.limit < UInt32.size) :
    a.frontier cursor = d.base.toNat + count := by
  obtain hnothing | ⟨u, s, hbuffer, hs⟩ := h.coherent.nothingPending_or_pending
  · rw [Assembly.frontier_of_nothing hnothing]
    exact h.nothing hnothing
  · have hcovers := h.pending u s hbuffer hs
    have hnonempty := hcovers.nonempty
    have hstop := hcovers.stop_le_limit
    rw [Assembly.frontier, Assembly.pendingFrom_of_pending hbuffer hs, Option.map_some, Option.getD_some,
      Address.toNat_add_ofNat (by omega)]
    exact hcovers.start

/-- The first bytes of the ciphertext are in flash, and no exchange programmed a byte after them. -/
structure Progress (d : Delivery) (count : Nat) (history : List (Exchange page σ))
    (content : FlashContent) : Prop where
  whole : count % Block.size = 0
  le_length : count ≤ d.ciphertext.length
  content_eq : content = d.contentAfter count
  programmed : ∀ x ∈ history, ∀ b, x.Programs b → b < d.base.toNat + count

variable {history : List (Exchange page σ)} {content : FlashContent} {count : Nat}

theorem Progress.concat (h : d.Progress count history content) {x : Exchange page σ}
    (hx : ∀ b, ¬x.Programs b) : d.Progress count (history ++ [x]) content :=
  { h with
    programmed := fun y hy b hprograms => by
      rcases List.mem_append.mp hy with hy | hy
      · exact h.programmed y hy b hprograms
      · rw [List.mem_singleton.mp hy] at hprograms
        exact absurd hprograms (hx b) }

end Delivery

/-! ### Exchanges that leave flash alone -/

namespace Snapshot

open Attempt

variable {s : Snapshot page σ} {a : Arrival} {d : Delivery} {address length : UInt32}

theorem exchange_quiet (honest : chip.Honest view)
    (hfaithful : Engine.Faithful view (s.engine, { flash := s.flash }))
    (hconsistent : s.engine.Consistent) (hpayload : ¬(s.exchange config chip a).CarriesPayload)
    (hdone : ¬(s.exchange config chip a).Asks .done) :
    view.content (s.exchange config chip a).after.flash = view.content s.flash ∧
      ∀ b, ¬(s.exchange config chip a).Programs b := by
  refine ⟨exchange_content honest hfaithful.1 hconsistent hpayload hdone, fun b hprograms => ?_⟩
  obtain ⟨_, _, start, bytes, _, hmem, _⟩ := hprograms
  rcases carriesPayload_or_asks_done_of_writes hconsistent ⟨start, bytes, none, hmem⟩ with h | h
  · exact hpayload h
  · exact hdone h

/-- A command that is neither `done` nor payload is quiet. -/
theorem exchange_quiet_of_asks (honest : chip.Honest view)
    (hfaithful : Engine.Faithful view (s.engine, { flash := s.flash }))
    (hconsistent : s.engine.Consistent) {command : Command}
    (h : (s.exchange config chip a).Asks command) (hcommand : command ≠ .done) :
    view.content (s.exchange config chip a).after.flash = view.content s.flash ∧
      ∀ b, ¬(s.exchange config chip a).Programs b := by
  refine exchange_quiet honest hfaithful hconsistent ?_ ?_
  · rintro ⟨⟨_, hdata⟩, _⟩
    obtain ⟨p, hp, _⟩ := h
    rw [hdata] at hp
    simp [Packet.command?] at hp
  · rintro ⟨p, hp, hdone⟩
    obtain ⟨q, hq, hasked'⟩ := h
    rw [hq, Option.some.injEq] at hp
    rw [← hasked', hp, hdone] at hcommand
    exact hcommand rfl

/-- An interruption leaves flash as it is. -/
theorem live_interrupts {incident : Incident} (h : incident.Interrupts) :
    (s.live config chip [incident]).flash = s.flash := by
  cases incident with
  | powerCycle => rfl
  | packet a =>
      obtain ⟨p, hp, hcommand⟩ := h
      change (s.exchange config chip a).after.flash = s.flash
      refine exchange_of_yields (Q := fun _ _ board => board.flash = s.flash) ?_
      refine Engine.yields_receive.mpr ⟨fun _ => rfl, fun _ _ => rfl, fun _ _ => ?_⟩
      rw [Engine.handle_of_command hp, Engine.execute, hcommand]
      exact Engine.yields_restart.mpr rfl

/-- Once the vector is announced it is awaited. -/
theorem exchange_announces (h : (s.exchange config chip a).Accepts .vector) :
    (s.exchange config chip a).after.engine.session.activity = .chainVector := by
  obtain ⟨hanswer, p, hp, hcommand⟩ := h
  rw [exchange_arrival] at hp
  apply exchange_of_accepted hanswer (Q := fun st => st.1.session.activity = .chainVector)
  rw [Engine.handle_of_command hp]
  apply Engine.yields_execute (fun _ _ => trivial)
  rw [hcommand]
  exact fun _ => rfl

/-- A vector that is accepted is the one in place. -/
theorem exchange_chains (hactivity : s.engine.session.activity = .chainVector) {bytes : Bytes}
    (hpacket : a.packet = .data bytes) (hanswer : (s.exchange config chip a).answer = .ok ()) :
    (s.exchange config chip a).after.engine.assembly.vector.toList = bytes := by
  apply exchange_of_accepted hanswer (Q := fun st => st.1.assembly.vector.toList = bytes)
  rw [hpacket]
  refine Engine.yields_consume.mpr ⟨fun _ => trivial, fun _ => ?_⟩
  rw [hactivity]
  exact Engine.yields_receiveVector (fun _ => trivial) fun vector hvector => hvector.symm

/-- A packet ends a transfer only if the last unit of its range ends within the address space. -/
theorem exchange_last (hpos : 0 < page) (hfits : page < UInt32.size)
    (h : s.engine.Transferring config address length) {base : UInt32} {ciphertext : Bytes}
    (hsuits : a.packet.Suits base ciphertext)
    (hidle : (s.exchange config chip a).after.engine.session.activity = .idle) :
    (address.toNat + length.toNat - 1) / page * page + page < UInt32.size := by
  refine exchange_of_yields (Q := fun _ e _ => e.session.activity = .idle →
    (address.toNat + length.toNat - 1) / page * page + page < UInt32.size) ?_ hidle
  have hbusy : s.engine.session.activity ≠ .idle := by simp [h.activity]
  cases hpacket : a.packet with
  | control bytes =>
      rw [hpacket] at hsuits
      have hsame {st : Engine page × Board σ}
          (hst : Engine.Undisturbed (s.engine, ({ flash := s.flash } : Board σ)) st)
          (hidle : st.1.session.activity = .idle) :
          (address.toNat + length.toNat - 1) / page * page + page < UInt32.size := by
        rw [hst.session] at hidle
        exact absurd hidle hbusy
      exact (Engine.receive_control_undisturbed hbusy hsuits).mono (fun _ _ hst => hsame hst)
        fun _ _ hst => hsame hst
  | data bytes =>
      rw [hpacket] at hsuits
      refine Engine.yields_receive_payload h.activity (fun _ _ hidle => absurd hidle hbusy)
        (fun _ hidle => absurd hidle hbusy) fun _ _ _ => ?_
      exact (Engine.receivePayload_last hpos hfits h hsuits.1).mono (fun _ _ hst => hst)
        fun _ _ hst hidle => absurd hidle hst

/-! ### A transfer of the rest -/

/-- A transfer of the rest of the ciphertext is under way that began after the first `start` bytes were in
flash. -/
structure Sends (config : Config) (view : NorFlash.View σ) (d : Delivery) (address : UInt32) (start : Nat)
    (length : UInt32) (history : List (Exchange page σ)) (s : Snapshot page σ) : Prop where
  low : d.base.toNat ≤ address.toNat
  start_le : address.toNat ≤ d.base.toNat + start
  aligned : (address.toNat - d.base.toNat) % Block.size = 0
  whole : start % Block.size = 0
  le_length : start ≤ d.ciphertext.length
  rest : address.toNat + length.toNat = d.limit
  transferring : s.engine.Transferring config address length
  underWay : Engine.UnderWay view (d.tail address (d.contentAfter start)) length
    (s.engine, { flash := s.flash })
  programmed : ∀ x ∈ history, ∀ b, x.Programs b →
    b < max (d.base.toNat + start) s.engine.frontier

variable {start : Nat} {history : List (Exchange page σ)}

theorem Sends.limit_tail (h : s.Sends config view d address start length history) :
    (d.tail address (d.contentAfter start)).limit = address.toNat + length.toNat := by
  have hlow := h.low
  have hrest := h.rest
  simp only [Delivery.limit, Delivery.tail, List.length_drop] at hrest ⊢
  omega

/-- The rest is whole blocks of the address space. -/
theorem Sends.lies (h : s.Sends config view d address start length history) :
    (d.tail address (d.contentAfter start)).Lies where
  base := h.transferring.whole.1
  length := by
    have hlimit := h.limit_tail
    have hwhole := h.transferring.whole.2
    simp only [Delivery.limit, Delivery.tail] at hlimit ⊢
    rw [Nat.add_left_cancel hlimit]
    exact hwhole
  limit_lt := by
    rw [h.limit_tail]
    exact h.transferring.limit_lt

/-- What a transfer of the rest has come to. -/
theorem Sends.progress (h : s.Sends config view d address start length history) :
    ∃ count, d.Progress count history (view.content s.flash) := by
  obtain ⟨_, _, more, hstands⟩ := h.underWay
  have hfrontier : s.engine.frontier = address.toNat + more :=
    hstands.frontier_eq h.lies.limit_lt
  have hlow := h.low
  have haligned := h.aligned
  have hwhole := h.whole
  have hlength := h.le_length
  have hrest := h.rest
  have hend := h.transferring.frontier_le.2
  have hmore := hstands.whole
  simp only [Delivery.limit] at hrest
  have hoffset : address.toNat = d.base.toNat + (address.toNat - d.base.toNat) := by omega
  refine ⟨max start (address.toNat - d.base.toNat + more), ?_, ?_, ?_, fun x hx b hprograms => ?_⟩
  · simp only [Block.size] at haligned hwhole hmore ⊢
    omega
  · omega
  · have hstart := h.start_le
    rw [hstands.content_eq]
    exact Delivery.contentAfter_tail hoffset haligned (by omega) hwhole hlength hmore (by omega)
  · have hb := h.programmed x hx b hprograms
    omega

/-- With the rest delivered, all of the ciphertext is in flash. -/
theorem Sends.content_delivered (h : s.Sends config view d address start length history) :
    d.ciphertext.length % Block.size = 0 ∧
      (d.tail address (d.contentAfter start)).contentAfter length.toNat =
        d.contentAfter d.ciphertext.length := by
  have hlow := h.low
  have hstart := h.start_le
  have haligned := h.aligned
  have hle := h.le_length
  have hrest := h.rest
  have hwhole := h.transferring.whole.2
  simp only [Delivery.limit] at hrest
  have hoffset : address.toNat = d.base.toNat + (address.toNat - d.base.toNat) := by omega
  have hall : address.toNat - d.base.toNat + length.toNat = d.ciphertext.length := by omega
  constructor
  · rw [← hall]
    simp only [Block.size] at haligned hwhole ⊢
    omega
  · rw [Delivery.contentAfter_tail hoffset haligned (by omega) h.whole hle hwhole (by omega), hall,
      Nat.max_eq_right hle]

/-- Packets that suit the ciphertext carry the transfer of the rest on or complete the whole. -/
theorem Sends.proceeds (honest : chip.Honest view) (hpos : 0 < page) (hunit : page % Block.size = 0)
    (hfits : page < UInt32.size) (hlast : (d.limit - 1) / page * page + page < UInt32.size)
    (hkey : config.key = d.key) (h : s.Sends config view d address start length history)
    (hsuits : a.packet.Suits d.base d.ciphertext) (hflash : ¬(s.exchange config chip a).FlashFailed) :
    (s.exchange config chip a).after.Sends config view d address start length
        (history ++ [s.exchange config chip a]) ∨
      (s.exchange config chip a).after.engine.session.activity = .idle ∧
        d.Progress d.ciphertext.length (history ++ [s.exchange config chip a])
          (view.content (s.exchange config chip a).after.flash) := by
  have hlies := h.lies
  have hlimit := h.limit_tail
  have hrest := h.rest
  have hfit : (d.tail address (d.contentAfter start)).Fits page :=
    { pos := hpos, unit := hunit, base := hlies.base, length := hlies.length
      last := by rw [hlimit, hrest]; exact hlast }
  have hlength : length.toNat = (d.tail address (d.contentAfter start)).ciphertext.length :=
    Nat.add_left_cancel hlimit.symm
  have htail := Delivery.suits_tail hsuits h.low (d.contentAfter start)
  obtain ⟨stop, hfirst, hlays, hwhere⟩ := exchange_lays chip hpos hfits h.transferring htail
  rcases exchange_proceeds honest hpos hfits hlies hkey hlength h.underWay htail with
    ⟨_, hfailed | hnot⟩ | hunderWay | ⟨hidle, hcontent, _⟩
  · exact absurd hfailed hflash
  · exact absurd hfit hnot
  · left
    rcases hwhere with ⟨htransferring, hle, _⟩ | ⟨hidle, _⟩
    · refine { h with transferring := htransferring, underWay := hunderWay, programmed := ?_ }
      intro x hx b hprograms
      rcases List.mem_append.mp hx with hx | hx
      · have hb := h.programmed x hx b hprograms
        omega
      · rw [List.mem_singleton.mp hx] at hprograms
        have hb := (hlays b).mp hprograms
        omega
    · exact absurd (hidle.symm.trans hunderWay.2.1) (by simp)
  · right
    obtain ⟨hwhole, hdelivered⟩ := h.content_delivered
    have hle := h.le_length
    have hend := h.transferring.frontier_le.2
    simp only [Delivery.limit] at hrest
    rw [← hlength, hdelivered] at hcontent
    refine ⟨hidle, hwhole, Nat.le_refl _, hcontent, fun x hx b hprograms => ?_⟩
    rcases List.mem_append.mp hx with hx | hx
    · have hb := h.programmed x hx b hprograms
      omega
    · rw [List.mem_singleton.mp hx] at hprograms
      have hb := (hlays b).mp hprograms
      rcases hwhere with ⟨htransferring, _⟩ | ⟨_, hstop, _⟩
      · exact absurd (hidle.symm.trans htransferring.activity) (by simp)
      · omega

/-! ### Lives of an update -/

theorem live_faithful (honest : chip.Honest view) (hfits : page < UInt32.size)
    (hs : Engine.Faithful view (s.engine, { flash := s.flash })) (life : List Incident) :
    Engine.Faithful view
      ((s.live config chip life).engine, { flash := (s.live config chip life).flash }) := by
  induction life generalizing s with
  | nil => exact hs
  | cons incident life ih =>
      cases incident with
      | packet a => exact ih (exchange_faithful honest hfits hs)
      | powerCycle => exact ih ⟨hs.1, fun u h => by simp at h⟩

/-- What an update has come to at a stage of it. -/
def Reached (config : Config) (view : NorFlash.View σ) (d : Delivery) (history : List (Exchange page σ))
    (s : Snapshot page σ) : Stage → Prop
  | .interrupted => ∃ count, d.Progress count history (view.content s.flash)
  | .announced =>
    s.engine.session.activity = .chainVector ∧ ∃ count, d.Progress count history (view.content s.flash)
  | .chained address =>
    d.base.toNat ≤ address.toNat ∧ (address.toNat - d.base.toNat) % Block.size = 0 ∧
      s.engine.assembly.vector = d.vectorAfter (address.toNat - d.base.toNat) ∧
      ∃ count, address.toNat ≤ d.base.toNat + count ∧ d.Progress count history (view.content s.flash)
  | .sending address =>
    (∃ start length, s.Sends config view d address start length history) ∨
      s.engine.session.activity = .idle ∧
        d.Progress d.ciphertext.length history (view.content s.flash)

theorem Reached.progress {stage : Stage} (h : s.Reached config view d history stage) :
    ∃ count, d.Progress count history (view.content s.flash) := by
  cases stage with
  | interrupted => exact h
  | announced => exact h.2
  | chained address =>
      obtain ⟨_, _, _, count, _, hprogress⟩ := h
      exact ⟨count, hprogress⟩
  | sending address =>
      rcases h with ⟨_, _, hsends⟩ | ⟨_, hprogress⟩
      · exact hsends.progress
      · exact ⟨_, hprogress⟩

section Steps

variable (honest : chip.Honest view)
  (hfaithful : Engine.Faithful view (s.engine, { flash := s.flash })) (hconsistent : s.engine.Consistent)

include honest hfaithful hconsistent

theorem Reached.restarts {stage : Stage} (h : s.Reached config view d history stage)
    (hasks : (s.exchange config chip a).Asks .restart) :
    (s.exchange config chip a).after.Reached config view d (history ++ [s.exchange config chip a])
      .interrupted := by
  obtain ⟨count, hprogress⟩ := h.progress
  obtain ⟨hsame, hquiet⟩ := exchange_quiet_of_asks honest hfaithful hconsistent hasks (by simp)
  exact ⟨count, hsame ▸ hprogress.concat hquiet⟩

theorem Reached.announces {stage : Stage} (h : s.Reached config view d history stage)
    (haccepts : (s.exchange config chip a).Accepts .vector) :
    (s.exchange config chip a).after.Reached config view d (history ++ [s.exchange config chip a])
      .announced := by
  obtain ⟨count, hprogress⟩ := h.progress
  obtain ⟨hsame, hquiet⟩ := exchange_quiet_of_asks honest hfaithful hconsistent haccepts.2 (by simp)
  exact ⟨exchange_announces haccepts, count, hsame ▸ hprogress.concat hquiet⟩

/-- An address up to which everything was programmed is within the part that is in flash. -/
theorem Reached.chains (h : s.Reached config view d history .announced)
    (hlow : d.base.toNat ≤ address.toNat) (hhigh : address.toNat < d.limit)
    (haligned : (address.toNat - d.base.toNat) % Block.size = 0)
    (hprogrammed : ∀ b, d.base.toNat ≤ b → b < address.toNat → ∃ x ∈ history, x.Programs b)
    (hpacket : a.packet = .data (Chain.before d.vector d.ciphertext (address.toNat - d.base.toNat)))
    (hanswer : (s.exchange config chip a).answer = .ok ()) :
    (s.exchange config chip a).after.Reached config view d (history ++ [s.exchange config chip a])
      (.chained address) := by
  obtain ⟨hactivity, count, hprogress⟩ := h
  have hpayload : ¬(s.exchange config chip a).CarriesPayload := by
    simp [Exchange.CarriesPayload, hactivity]
  have hdone : ¬(s.exchange config chip a).Asks .done := by
    simp [Exchange.Asks, hpacket, Packet.command?]
  obtain ⟨hsame, hquiet⟩ := exchange_quiet honest hfaithful hconsistent hpayload hdone
  refine ⟨hlow, haligned, ?_, count, ?_, hsame ▸ hprogress.concat hquiet⟩
  · apply Vector.toList_inj.mp
    simp only [Delivery.limit] at hhigh
    rw [exchange_chains hactivity hpacket hanswer, d.toList_vectorAfter haligned (by omega)]
  · by_contra hbeyond
    obtain ⟨x, hx, hprograms⟩ := hprogrammed (d.base.toNat + count) (Nat.le_add_right _ _) (by omega)
    exact absurd (hprogress.programmed x hx _ hprograms) (Nat.lt_irrefl _)

/-- A transfer from that address on delivers the rest of the ciphertext. -/
theorem Reached.begins (hpos : 0 < page) (hfits : page < UInt32.size) (hkey : d.key = config.key)
    (h : s.Reached config view d history (.chained address)) {length : UInt16}
    (hbegins : (s.exchange config chip a).Begins address length)
    (hrest : address.toNat + length.toNat = d.limit) :
    (s.exchange config chip a).after.Reached config view d (history ++ [s.exchange config chip a])
      (.sending address) := by
  obtain ⟨hlow, haligned, hvector, count, hstart, hprogress⟩ := h
  obtain ⟨_, hquiet⟩ := exchange_quiet_of_asks honest hfaithful hconsistent ⟨_, hbegins.2, rfl⟩ (by simp)
  obtain ⟨htransferring, hfrontier⟩ :=
    exchange_transferring hpos hfits (fun u hu => (hfaithful.2 u hu).1) hconsistent hbegins
  have hlength : (d.ciphertext.drop (address.toNat - d.base.toNat)).length = length.toNat := by
    simp only [Delivery.limit] at hrest
    rw [List.length_drop]
    omega
  obtain ⟨_, hunderWay⟩ := exchange_underWay honest hfits hfaithful hconsistent hbegins hlength
  rw [hvector, hprogress.content_eq, ← hkey] at hunderWay
  refine Or.inl ⟨count, length.toUInt32,
    { low := hlow, start_le := hstart, aligned := haligned, whole := hprogress.whole
      le_length := hprogress.le_length, rest := by simpa using hrest
      transferring := htransferring, underWay := hunderWay
      programmed := fun x hx b hprograms => ?_ }⟩
  have hb := (hprogress.concat hquiet).programmed x hx b hprograms
  omega

end Steps

variable {base : UInt32} {ciphertext : Bytes} {stage : Stage} {life : List Incident}

/-- A transfer of an update goes on to the end of the range, and ends only if the last unit of the range
ends within the address space. -/
theorem Resumes.transferring (honest : chip.Honest view) (hpos : 0 < page) (hfits : page < UInt32.size)
    (hfaithful : Engine.Faithful view (s.engine, { flash := s.flash })) (hs : s.engine.Consistent)
    (h : s.Resumes config chip base ciphertext (.sending address) life) :
    (∃ length : UInt32, address.toNat + length.toNat = base.toNat + ciphertext.length ∧
        (s.live config chip life).engine.Transferring config address length) ∨
      (s.live config chip life).engine.session.activity = .idle ∧
        (base.toNat + ciphertext.length - 1) / page * page + page < UInt32.size := by
  generalize hstage : Stage.sending address = stage at h
  induction h with
  | start | interrupt | announce | chain => simp at hstage
  | @begin life a address' length before begins rest =>
      obtain rfl := Stage.sending.inj hstage
      have haligned : (s.live config chip life).engine.assembly.Aligned :=
        fun u hu => ((live_faithful honest hfits hfaithful life).2 u hu).1
      obtain ⟨htransferring, _⟩ :=
        exchange_transferring hpos hfits haligned (live_consistent hs life) begins
      rw [live_packet]
      exact Or.inl ⟨length.toUInt32, by simpa using rest, htransferring⟩
  | @send life a address' before awaited suits ih =>
      rw [live_packet]
      obtain ⟨length, hrest, htransferring⟩ | ⟨hidle, _⟩ := ih hstage
      · obtain ⟨_, _, _, ⟨hon, _⟩ | ⟨hidle, _⟩⟩ := exchange_lays chip hpos hfits htransferring suits
        · exact Or.inl ⟨length, hrest, hon⟩
        · right
          rw [← hrest]
          exact ⟨hidle, exchange_last hpos hfits htransferring suits hidle⟩
      · exact absurd hidle awaited

/-- At every stage of an update the first part of the ciphertext is in flash and nothing else was
programmed. -/
theorem Resumes.reached (honest : chip.Honest view) (hpos : 0 < page) (hunit : page % Block.size = 0)
    (hfits : page < UInt32.size)
    (hlast : (base.toNat + ciphertext.length - 1) / page * page + page < UInt32.size)
    (hfaithful : Engine.Faithful view (s.engine, { flash := s.flash })) (hs : s.engine.Consistent)
    (h : s.Resumes config chip base ciphertext stage life)
    (hflash : ∀ x ∈ s.history config chip life, ¬x.FlashFailed) :
    (s.live config chip life).Reached config view
      ⟨config.key, s.engine.assembly.vector, base, ciphertext, view.content s.flash⟩
      (s.history config chip life) stage := by
  let d : Delivery :=
    ⟨config.key, s.engine.assembly.vector, base, ciphertext, view.content s.flash⟩
  change (s.live config chip life).Reached config view d (s.history config chip life) stage
  have hmirrors (life : List Incident) : Engine.Faithful view
      ((s.live config chip life).engine, { flash := (s.live config chip life).flash }) :=
    live_faithful honest hfits hfaithful life
  have hconsistent (life : List Incident) : (s.live config chip life).engine.Consistent :=
    live_consistent hs life
  induction h with
  | start =>
      have hoffset : base.toNat - d.base.toNat = 0 := Nat.sub_self _
      refine ⟨Nat.le_refl _, by simp [hoffset], by rw [hoffset, d.vectorAfter_zero]; rfl, 0,
        Nat.le_refl _, rfl, Nat.zero_le _, d.contentAfter_zero.symm, by simp [history]⟩
  | @interrupt stage life incident before interrupts ih =>
      cases incident with
      | powerCycle =>
          rw [history_powerCycle] at hflash
          rw [live_powerCycle, history_powerCycle]
          exact (ih hflash).progress
      | packet a =>
          rw [history_packet, List.forall_mem_append] at hflash
          rw [live_packet, history_packet]
          obtain ⟨p, hp, hcommand⟩ := interrupts
          refine (ih hflash.1).restarts honest (hmirrors life) (hconsistent life) ⟨p, ?_, hcommand⟩
          rw [exchange_arrival]
          exact hp
  | @announce life a before accepted ih =>
      rw [history_packet, List.forall_mem_append] at hflash
      rw [live_packet, history_packet]
      exact (ih hflash.1).announces honest (hmirrors life) (hconsistent life) accepted
  | @chain life a address before low high aligned programmed vector accepted ih =>
      rw [history_packet, List.forall_mem_append] at hflash
      rw [live_packet, history_packet]
      exact (ih hflash.1).chains honest (hmirrors life) (hconsistent life) low high aligned programmed
        vector accepted
  | @begin life a address length before begins rest ih =>
      rw [history_packet, List.forall_mem_append] at hflash
      rw [live_packet, history_packet]
      exact (ih hflash.1).begins honest (hmirrors life) (hconsistent life) hpos hfits rfl begins rest
  | @send life a address before awaited suits ih =>
      rw [history_packet, List.forall_mem_append] at hflash
      rw [live_packet, history_packet]
      obtain ⟨start, length, hsends⟩ | ⟨hidle, _⟩ := ih hflash.1
      · have hlast' : (d.limit - 1) / page * page + page < UInt32.size := hlast
        exact (hsends.proceeds honest hpos hunit hfits hlast' rfl suits
          (hflash.2 _ (List.mem_singleton_self _))).imp_left fun h => ⟨start, length, h⟩
      · exact absurd hidle awaited

/-- However often it was interrupted, an update that completes leaves the flash that an uninterrupted
transfer leaves, with the decrypted ciphertext in its range. No interruption changes flash. -/
theorem resumed_update_matches_uninterrupted (config : Config) (chip : NorFlash σ)
    (view : NorFlash.View σ) (honest : chip.Honest view) (hpos : 0 < page)
    (hunit : page % Block.size = 0) (hfits : page < UInt32.size) (s : Snapshot page σ)
    (hs : s.Reachable config chip view) (base : UInt32) (ciphertext : Bytes) (life : List Incident)
    (address : UInt32) (hlife : s.Resumes config chip base ciphertext (.sending address) life)
    (hidle : (s.live config chip life).engine.session.activity = .idle)
    (hflash : ∀ x ∈ s.history config chip life, ¬x.FlashFailed) :
    let after := s.live config chip life
    ((view.content after.flash).peek base.toNat ciphertext.length =
        Chain.plaintext config.key s.engine.assembly.vector ciphertext ∧
      ∀ x, x < base.toNat ∨ base.toNat + ciphertext.length ≤ x →
        view.content after.flash x = view.content s.flash x) ∧
      (∀ (a : Arrival) (length : UInt16) (as : List Arrival),
        (s.exchange config chip a).Begins base length → ciphertext.length = length.toNat →
          (∀ b ∈ as, b.packet.Suits base ciphertext) →
            (∀ x ∈ (s.exchange config chip a).after.exchanges config chip as, ¬x.FlashFailed) →
              (s.exchange config chip a).after.IdleOnceAfter config chip as →
                view.content after.flash = view.content (s.run config chip (a :: as)).flash) ∧
      ∀ (t : Snapshot page σ) (incident : Incident), incident.Interrupts →
        (t.live config chip [incident]).flash = t.flash := by
  intro after
  let d : Delivery :=
    ⟨config.key, s.engine.assembly.vector, base, ciphertext, view.content s.flash⟩
  have hfaithful := hs.faithful honest hfits
  have hlast : (base.toNat + ciphertext.length - 1) / page * page + page < UInt32.size := by
    rcases hlife.transferring honest hpos hfits hfaithful hs.consistent with
      ⟨_, _, htransferring⟩ | ⟨_, hlast⟩
    · exact absurd (hidle.symm.trans htransferring.activity) (by simp)
    · exact hlast
  have hprogress : d.Progress d.ciphertext.length (s.history config chip life)
      (view.content after.flash) := by
    rcases hlife.reached honest hpos hunit hfits hlast hfaithful hs.consistent hflash with
      ⟨_, _, hsends⟩ | ⟨_, hprogress⟩
    · exact absurd (hidle.symm.trans hsends.transferring.activity) (by simp)
    · exact hprogress
  have hcontent := hprogress.content_eq
  obtain ⟨hrange, hrest⟩ := d.contentAfter_length hprogress.whole
  refine ⟨?_, fun a length as hbegins hlength hsuits hflash' hends => ?_,
    fun t incident => live_interrupts⟩
  · rw [hcontent]
    exact ⟨hrange, hrest⟩
  · rw [hlength] at hlast
    obtain ⟨hfit, hunderWay⟩ := exchange_begins honest hs hpos hunit hbegins hlength hlast
    have hdelivered := run_delivered honest hfit rfl (by simpa using hlength.symm) hunderWay hsuits
      hflash' hends
    exact hcontent.trans hdelivered.2.1.symm

end Snapshot

end FirmwareUpdate

/-! ### A power cycle in the middle of a transfer -/

namespace FirmwareUpdate

namespace SmallDevice

def twoBlocks : Arrival := command { command := .data, length := 32, address := 48 }

/-- The first block of zeros and half of the second. -/
def firstPart : Arrival :=
  data (PayloadPacket.encode { address := 48, payload := List.replicate 24 0 })

def announceVector : Arrival := command { command := .vector, length := 16 }

def firstBlock : Arrival := data (List.replicate 16 0)

def secondBlock : Arrival := command { command := .data, length := 16, address := 64 }

def secondPart : Arrival :=
  data (PayloadPacket.encode { address := 64, payload := List.replicate 16 0 })

/-- Power is lost once the first of two units is programmed, and the peer goes on with the second. -/
def resumed : List Incident :=
  [.packet twoBlocks, .packet firstPart, .powerCycle, .packet announceVector, .packet firstBlock,
    .packet secondBlock, .packet secondPart]

/-- What each packet was answered, what was awaited then, and what was programmed. -/
theorem steps_resumed :
    (start.history config chip resumed).map
        (fun x => (x.answer.toBool, x.after.engine.session.activity,
          x.events.toList.filterMap Event.programmed?)) =
      [(true, .transfer 48 32, []), (true, .transfer 48 32, [(48, 16)]), (true, .chainVector, []),
        (true, .idle, []), (true, .transfer 64 16, []), (true, .idle, [(64, 16)])] := by
  decide +kernel

theorem resumes : start.Resumes config chip 48 (List.replicate 32 0) (.sending 64) resumed ∧
    (start.live config chip resumed).engine.session.activity = .idle := by
  have hsteps := steps_resumed
  simp only [resumed, Snapshot.history, List.map_cons, List.map_nil, List.cons.injEq, Prod.mk.injEq,
    and_true, Exchange.toBool_answer] at hsteps
  obtain ⟨⟨hbegun, hawaited, _⟩, ⟨_, _, hwritten⟩, ⟨hannounced, _⟩, ⟨hchained, _⟩,
    ⟨hbegun', hawaited', _⟩, ⟨_, hidle, _⟩⟩ := hsteps
  have hbegins : (start.exchange config chip twoBlocks).Begins 48 32 :=
    Snapshot.begins_of_answer hbegun (by decide)
  have hfirst : start.Resumes config chip 48 (List.replicate 32 0) (.sending 48) (resumed.take 1) :=
    .begin .start hbegins rfl
  have hsent : start.Resumes config chip 48 (List.replicate 32 0) (.sending 48) (resumed.take 2) := by
    refine .send hfirst (fun h => ?_) (zeros_suit rfl (by decide) rfl)
    simp only [resumed, List.take_succ_cons, List.take_zero, Snapshot.live] at h
    exact absurd (hawaited.symm.trans h) (by simp)
  have hlost : start.Resumes config chip 48 (List.replicate 32 0) .interrupted (resumed.take 3) :=
    .interrupt hsent (show Incident.powerCycle.Interrupts from trivial)
  have haccepted : ((start.live config chip (resumed.take 3)).exchange config chip
      announceVector).Accepts .vector := by
    refine ⟨hannounced, { command := .vector, length := 16 }, ?_, rfl⟩
    rw [Snapshot.exchange_arrival]
    decide
  have hannounced : start.Resumes config chip 48 (List.replicate 32 0) .announced (resumed.take 4) :=
    .announce hlost haccepted
  have hprogrammed (b : Nat) (hlow : (48 : UInt32).toNat ≤ b) (hhigh : b < (64 : UInt32).toNat) :
      ∃ x ∈ start.history config chip (resumed.take 4), x.Programs b := by
    have hinside : b < (48 : UInt32).toNat + (32 : UInt32).toNat := Nat.lt_trans hhigh (by decide)
    refine ⟨_, List.mem_cons_of_mem _ List.mem_cons_self,
      Exchange.programs_of_programmed ?_ ?_ hlow hinside hlow
        (show b < (48 : UInt32).toNat + 16 from hhigh)⟩
    · rw [Snapshot.exchange_before]
      exact hawaited
    · rw [hwritten]
      exact List.mem_cons_self
  have hchained : start.Resumes config chip 48 (List.replicate 32 0) (.chained 64) (resumed.take 5) :=
    .chain hannounced (by decide) (by decide) (by decide) hprogrammed rfl hchained
  have hbegins' : ((start.live config chip (resumed.take 5)).exchange config chip secondBlock).Begins
      64 16 := Snapshot.begins_of_answer hbegun' (by decide)
  have hresumed : start.Resumes config chip 48 (List.replicate 32 0) (.sending 64) (resumed.take 6) :=
    .begin hchained hbegins' rfl
  have hrested : (start.live config chip resumed).engine.session.activity = .idle := by
    simp only [resumed, Snapshot.live]
    exact hidle
  refine ⟨.send hresumed (fun h => ?_) (zeros_suit rfl (by decide) rfl), hrested⟩
  simp only [resumed, List.take_succ_cons, List.take_zero, Snapshot.live] at h
  exact absurd (hawaited'.symm.trans h) (by simp)

end SmallDevice

open SmallDevice in
theorem resumed_update_matches_uninterrupted_small :
    start.Resumes SmallDevice.config SmallDevice.chip 48 (List.replicate 32 0) (.sending 64) resumed ∧
      (start.live SmallDevice.config SmallDevice.chip resumed).engine.session.activity = .idle ∧
      (FlashMemory.view.content
        (start.live SmallDevice.config SmallDevice.chip resumed).flash).peek 48 32 =
          Chain.plaintext SmallDevice.config.key start.engine.assembly.vector
            (List.replicate 32 0) := by
  obtain ⟨hresumes, hidle⟩ := resumes
  have h := Snapshot.resumed_update_matches_uninterrupted SmallDevice.config SmallDevice.chip
    FlashMemory.view (FlashMemory.chip_atomic 16).toHonest (by decide) (by decide) (by decide) start
    ⟨_, [], flash_sound, rfl⟩ 48 (List.replicate 32 0) resumed 64 hresumes hidle (by decide +kernel)
  exact ⟨hresumes, hidle, h.1.1⟩

end FirmwareUpdate
