import FirmwareUpdate.Proofs.Boot
import FirmwareUpdate.Proofs.Confirmation
import FirmwareUpdate.Proofs.Engine.Coverage
import FirmwareUpdate.Proofs.Engine.Position

/-!
# Only the application region is changed

Flash is erased in whole units that have a byte of the application region, and programmed in the unit
erased just before; only `done` writes anything else, and that is the tag. No packet and no answer of the
chip leads to another call. If the region is whole units, nothing outside it is erased or written.
-/

namespace FirmwareUpdate

variable {page : Nat} {σ : Type} {config : Config} {chip : NorFlash σ} {confirms : Prop}

/-- The call erases or programs the byte at the address. -/
def FlashCall.Changes : FlashCall → Nat → Prop
  | .read _ _, _ => False
  | .erase start stop, address => start.toNat ≤ address ∧ address < stop.toNat
  | .write start bytes, address => start.toNat ≤ address ∧ address < start.toNat + bytes.length

/-- The calls that may follow what was done before, `confirms` saying whether the image may be
confirmed. -/
inductive FlashCall.Allowed (config : Config) (page : Nat) (confirms : Prop) (earlier : List Event) :
    FlashCall → Prop where
  | read (address : UInt32) (length : Nat) : Allowed config page confirms earlier (.read address length)
  /-- A whole unit with a byte of the application region is erased. -/
  | erase {start stop : UInt32}
      (unit : IsUnitOf page config.appBase.toNat config.appLimit.toNat start.toNat)
      (whole : stop.toNat = start.toNat + page) : Allowed config page confirms earlier (.erase start stop)
  /-- The unit that was erased just before is programmed as a whole. -/
  | program {front : List Event} {start stop : UInt32} {bytes : Bytes}
      (erased : earlier = front ++ [.flash (.erase start stop) none]) (whole : bytes.length = page) :
      Allowed config page confirms earlier (.write start bytes)
  /-- The image is confirmed. -/
  | confirm (h : confirms) :
      Allowed config page confirms earlier (Confirmation.tagWrite config.tagAddress)

/-- Every flash call may follow the events before it. -/
def StaysInside (config : Config) (page : Nat) (confirms : Prop) (events : List Event) : Prop :=
  ∀ earlier call failure later, events = earlier ++ .flash call failure :: later →
    call.Allowed config page confirms earlier

theorem staysInside_nil : StaysInside config page confirms [] := by
  intro earlier call failure later h
  simp at h

theorem StaysInside.concat {events : List Event} (h : StaysInside config page confirms events)
    {event : Event}
    (hevent : ∀ call failure, event = .flash call failure →
      call.Allowed config page confirms events) :
    StaysInside config page confirms (events ++ [event]) := by
  intro earlier call failure later hevents
  rcases cut_concat hevents with ⟨heq, rfl⟩ | ⟨later', _, hpast⟩
  · obtain ⟨rfl, _⟩ := List.append_inj' hevents rfl
    exact hevent call failure heq
  · exact h earlier call failure later' hpast

/-- A unit that was programmed was erased just before. -/
theorem StaysInside.unit_of_write {events : List Event} (h : StaysInside config page confirms events)
    {front later : List Event} {start stop : UInt32} {failure : Option FlashError} {bytes : Bytes}
    (hevents : events =
      front ++ [.flash (.erase start stop) none] ++ .flash (.write start bytes) failure :: later) :
    IsUnitOf page config.appBase.toNat config.appLimit.toNat start.toNat := by
  rw [List.append_assoc] at hevents
  cases h front _ _ _ hevents with
  | erase unit _ => exact unit

/-- A unit that has a byte of a region of whole units lies in the region. -/
theorem IsUnitOf.inRegion {base limit unit : Nat} (h : IsUnitOf page base limit unit)
    (hbase : page ∣ base) (hlimit : page ∣ limit) : base ≤ unit ∧ unit + page ≤ limit := by
  obtain ⟨j, rfl⟩ := hbase
  obtain ⟨k, rfl⟩ := hlimit
  obtain ⟨i, rfl⟩ := h.aligned
  have hnonempty := h.nonempty
  have hlow : page * j < page * (i + 1) := by
    rw [Nat.mul_succ]
    omega
  have hhigh : page * i < page * k := by omega
  rw [← Nat.mul_succ]
  exact ⟨Nat.mul_le_mul_left page (Nat.le_of_lt_succ (Nat.lt_of_mul_lt_mul_left hlow)),
    Nat.mul_le_mul_left page (Nat.lt_of_mul_lt_mul_left hhigh)⟩

/-- In a region of whole units that holds a record, only bytes of the region are changed. -/
theorem StaysInside.inRegion {events : List Event} (h : StaysInside config page confirms events)
    (hbase : page ∣ config.appBase.toNat) (hlimit : page ∣ config.appLimit.toNat)
    (hrecord : config.HoldsRecord) {call : FlashCall} {failure : Option FlashError}
    (hmem : .flash call failure ∈ events) {address : Nat} (hchanges : call.Changes address) :
    config.InRegion address := by
  obtain ⟨earlier, later, hevents⟩ := List.append_of_mem hmem
  cases h earlier call failure later hevents with
  | read => exact hchanges.elim
  | erase unit whole =>
      obtain ⟨hlow, hhigh⟩ := unit.inRegion hbase hlimit
      obtain ⟨hstart, hstop⟩ := hchanges
      exact ⟨by omega, by omega⟩
  | program erased whole =>
      subst erased
      obtain ⟨hlow, hhigh⟩ := (h.unit_of_write hevents).inRegion hbase hlimit
      obtain ⟨hstart, hstop⟩ := hchanges
      exact ⟨by omega, by omega⟩
  | confirm =>
      obtain ⟨hstart, hstop⟩ := hchanges
      rw [Config.tagAddress_toNat hrecord] at hstart hstop
      rw [LittleEndian.length_encode32] at hstop
      simp only [Config.HoldsRecord, BootRecord.byteSize] at hrecord
      exact ⟨by omega, by omega⟩

/-! ### What packets do -/

open Attempt

/-- All that was done stays inside the application region. -/
def Board.StaysInside (config : Config) (page : Nat) (confirms : Prop) (board : Board σ) : Prop :=
  FirmwareUpdate.StaysInside config page confirms board.events.toList

theorem Board.StaysInside.push {board : Board σ} (h : board.StaysInside config page confirms)
    {event : Event}
    (hevent : ∀ call failure, event = .flash call failure →
      call.Allowed config page confirms board.events.toList) {flash : σ} :
    Board.StaysInside config page confirms ⟨flash, board.events.push event⟩ := by
  unfold Board.StaysInside
  rw [Array.toList_push]
  exact h.concat hevent

theorem Board.keptByReads_staysInside (chip : NorFlash σ) :
    KeptByReads chip (StaysInside config page confirms) where
  read address length board h := by
    have hread (failure : Option FlashError) (flash : σ) :
        StaysInside config page confirms
          ⟨flash, board.events.push (.flash (.read address length) failure)⟩ := by
      apply h.push
      rintro _ _ ⟨⟩
      exact .read address length
    exact yields_call (fun _ flash _ => hread none flash) fun e flash _ => hread (some e) flash
  emit event hcall := keeps_emit fun board h => h.push fun call failure heq => by
    rw [heq] at hcall
    exact absurd trivial hcall

/-- A unit of the region is erased and programmed. -/
theorem reprogram_staysInside {u : UnitBuffer page} {stop : UInt32}
    (hunit : IsUnitOf page config.appBase.toNat config.appLimit.toNat u.base.toNat)
    (hstop : stop.toNat = u.base.toNat + page) :
    (Assembly.reprogram chip u stop).Keeps (Board.StaysInside config page confirms) := by
  intro board h
  have herase (failure : Option FlashError) (flash : σ) : Board.StaysInside config page confirms
      ⟨flash, board.events.push (.flash (.erase u.base stop) failure)⟩ := by
    apply h.push
    rintro _ _ ⟨⟩
    exact .erase hunit hstop
  have hwrite (failure : Option FlashError) (flash flash' : σ) :
      Board.StaysInside config page confirms
        ⟨flash', (board.events.push (.flash (.erase u.base stop) none)).push
          (.flash (.write u.base u.bytes.toList) failure)⟩ := by
    apply (herase none flash).push
    rintro _ _ ⟨⟩
    exact .program (Array.toList_push ..) (by simp)
  rw [Assembly.yields_reprogram]
  refine Board.yields_call (fun _ flash _ => ?_) fun e flash _ => herase (some e) flash
  exact Board.yields_call (fun _ flash' _ => hwrite none flash flash')
    fun e flash' _ => hwrite (some e) flash flash'

theorem confirm_staysInside (hconfirms : confirms) :
    (Board.write chip config.tagAddress (LittleEndian.encode32 RecordTag.confirmedWord)).Keeps
      (Board.StaysInside config page confirms) := by
  intro board h
  have hwrite (failure : Option FlashError) (flash : σ) : Board.StaysInside config page confirms
      ⟨flash, board.events.push (.flash (Confirmation.tagWrite config.tagAddress) failure)⟩ := by
    apply h.push
    rintro _ _ ⟨⟩
    exact .confirm hconfirms
  exact Board.yields_call (fun _ flash _ => hwrite none flash) fun e flash _ => hwrite (some e) flash


namespace Snapshot

variable {s : Snapshot page σ} {a : Arrival}

/-- Payload leads only to reads and to the reprogramming of units of the region. -/
theorem exchange_payload_staysInside (hpos : 0 < page) (hfits : page < UInt32.size)
    (hs : s.engine.Positioned config) (hsized : a.packet.Sized)
    (hpayload : (s.exchange config chip a).CarriesPayload) :
    StaysInside config page confirms (s.exchange config chip a).events.toList := by
  obtain ⟨⟨bytes, hpacket⟩, base, length, hactivity⟩ := hpayload
  rw [exchange_arrival] at hpacket
  rw [exchange_before] at hactivity
  rw [hpacket] at hsized
  have htransferring := hs.transferring hactivity
  have hreads : Board.KeptByReads chip (Board.StaysInside config page confirms) :=
    Board.keptByReads_staysInside chip
  have htracks : Board.Tracks chip page base.toNat (base.toNat + length.toNat)
      (fun _ => Board.StaysInside config page confirms)
      (fun _ _ _ => Board.StaysInside config page confirms) :=
    hreads.tracks fun hunit hstop => reprogram_staysInside
      (hunit.mono (UInt32.le_iff_toNat_le.mp htransferring.admitted.1) htransferring.admitted.2) hstop
  apply exchange_of_yields (Q := fun _ _ board => Board.StaysInside config page confirms board)
  rw [hpacket]
  refine Engine.yields_receive_payload hactivity (fun _ _ => staysInside_nil) (fun _ => staysInside_nil)
    fun _ _ _ => ?_
  have hfresh : Board.StaysInside config page confirms { flash := s.flash } := staysInside_nil
  refine (Engine.receivePayload_tracks htracks (fun _ => hreads.emit) hpos hfits
    ⟨htransferring, hfresh⟩ hsized).mono (fun _ st hst => ?_) fun err st hst => ?_
  · rcases hst with ⟨⟨_, hinside⟩, _⟩ | ⟨_, _, _, hinside⟩
    · exact hinside
    · exact hinside
  · rcases hst with ⟨_, rfl⟩ | ⟨_, _, _, hinside⟩
    · exact hfresh
    · exact hinside

theorem exchange_staysInside (hpos : 0 < page) (hfits : page < UInt32.size)
    (hconsistent : s.engine.Consistent) (hs : s.engine.Positioned config) (hsized : a.packet.Sized) :
    StaysInside config page ((s.exchange config chip a).Asks .done)
      (s.exchange config chip a).events.toList := by
  by_cases hpayload : (s.exchange config chip a).CarriesPayload
  · exact exchange_payload_staysInside hpos hfits hs hsized hpayload
  · exact exchange_keeps (P := Board.StaysInside config page _) hconsistent
      (Board.keptByReads_staysInside chip) hpayload confirm_staysInside staysInside_nil

/-- Every flash call of a run reads, erases a whole unit that has a byte of the application region,
programs the unit erased just before, or confirms the image on `done`. If the region is whole units,
only its bytes are changed. -/
theorem flash_calls_stay_inside (config : Config) (chip : NorFlash σ) (hpos : 0 < page)
    (hfits : page < UInt32.size) (flash : σ) (past : List Arrival)
    (hsized : ∀ a ∈ past, a.packet.Sized) :
    ∀ x ∈ (⟨{}, flash⟩ : Snapshot page σ).exchanges config chip past,
      StaysInside config page (x.Asks .done) x.events.toList ∧
        (page ∣ config.appBase.toNat → page ∣ config.appLimit.toNat → config.HoldsRecord →
          ∀ call failure, .flash call failure ∈ x.events →
            ∀ address, call.Changes address → config.InRegion address) := by
  refine exchanges_induction
    (P := fun s => s.engine.Consistent ∧ s.engine.Positioned config)
    ⟨Engine.consistent_fresh, Engine.positioned_fresh⟩ fun s a ha hs => ?_
  obtain ⟨hconsistent, hpositioned⟩ := hs
  have hsize := hsized a ha
  have hinside : StaysInside config page _ (s.exchange config chip a).events.toList :=
    exchange_staysInside hpos hfits hconsistent hpositioned hsize
  refine ⟨⟨hinside, fun hbase hlimit hrecord call failure hmem address hchanges => ?_⟩,
    exchange_consistent hconsistent, exchange_positioned hpos hfits hconsistent hpositioned hsize⟩
  exact hinside.inRegion hbase hlimit hrecord (Array.mem_toList_iff.mpr hmem) hchanges

end Snapshot

open SmallDevice in
theorem flash_calls_stay_inside_small :
    (∀ a ∈ unhashed ++ [done], a.packet.Sized) ∧ SmallDevice.config.HoldsRecord ∧
      ∀ x ∈ history (unhashed ++ [done]), ∀ call failure, .flash call failure ∈ x.events →
        ∀ address, call.Changes address → SmallDevice.config.InRegion address := by
  have hsized : ∀ a ∈ unhashed ++ [done], a.packet.Sized := by decide +kernel
  have hrecord : SmallDevice.config.HoldsRecord := by decide
  refine ⟨hsized, hrecord, fun x hx => ?_⟩
  have hinside := Snapshot.flash_calls_stay_inside SmallDevice.config SmallDevice.chip (by decide)
    (by decide) SmallDevice.flash (unhashed ++ [done]) hsized x hx
  exact hinside.2 (by decide) (by decide) hrecord

end FirmwareUpdate
