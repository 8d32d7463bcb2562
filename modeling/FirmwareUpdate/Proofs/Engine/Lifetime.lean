import FirmwareUpdate.Proofs.Engine.Verification

/-!
# The life of a device

A life is a run of packets with power cycles between them; a power cycle keeps flash and nothing
else. A device becomes bootable without an accepted `done` exactly when an exchange changes the
application region and leaves a confirmed record behind. That can be payload, whose plaintext may
carry such a record or leave an older one below the units it rewrites, or a `done` that fails after
it has written.
-/

namespace FirmwareUpdate

variable {page : Nat} {σ : Type} {config : Config} {chip : NorFlash σ} {view : NorFlash.View σ}
variable {s : Snapshot page σ}

/-- What can happen to a device. -/
inductive Incident where
  | packet (arrival : Arrival)
  /-- Power is lost and comes back. -/
  | powerCycle
deriving DecidableEq

namespace Snapshot

/-- What stands once incidents have happened one after another. -/
def live (config : Config) (chip : NorFlash σ) : Snapshot page σ → List Incident → Snapshot page σ
  | s, [] => s
  | s, .packet a :: life => live config chip (s.exchange config chip a).after life
  | s, .powerCycle :: life => live config chip { flash := s.flash } life

/-- The exchanges of a life, in their order. -/
def history (config : Config) (chip : NorFlash σ) :
    Snapshot page σ → List Incident → List (Exchange page σ)
  | _, [] => []
  | s, .packet a :: life =>
    s.exchange config chip a :: history config chip (s.exchange config chip a).after life
  | s, .powerCycle :: life => history config chip { flash := s.flash } life

theorem live_append (past life : List Incident) :
    s.live config chip (past ++ life) = (s.live config chip past).live config chip life := by
  induction past generalizing s with
  | nil => rfl
  | cons incident past ih => cases incident <;> exact ih

theorem history_append (past life : List Incident) :
    s.history config chip (past ++ life) =
      s.history config chip past ++ (s.live config chip past).history config chip life := by
  induction past generalizing s with
  | nil => rfl
  | cons incident past ih =>
      cases incident with
      | packet a => exact congrArg (_ :: ·) ih
      | powerCycle => exact ih

theorem live_packet (past : List Incident) (a : Arrival) :
    s.live config chip (past ++ [.packet a]) =
      ((s.live config chip past).exchange config chip a).after :=
  live_append past _

theorem live_powerCycle (past : List Incident) :
    s.live config chip (past ++ [.powerCycle]) = { flash := (s.live config chip past).flash } :=
  live_append past _

theorem history_packet (past : List Incident) (a : Arrival) :
    s.history config chip (past ++ [.packet a]) =
      s.history config chip past ++ [(s.live config chip past).exchange config chip a] :=
  history_append past _

theorem history_powerCycle (past : List Incident) :
    s.history config chip (past ++ [.powerCycle]) = s.history config chip past :=
  (history_append past _).trans (List.append_nil _)

/-- A life without power cycles is a run. -/
theorem live_map_packet (as : List Arrival) :
    s.live config chip (as.map .packet) = s.run config chip as := by
  induction as generalizing s with
  | nil => rfl
  | cons a as ih => exact ih

theorem history_map_packet (as : List Arrival) :
    s.history config chip (as.map .packet) = s.exchanges config chip as := by
  induction as generalizing s with
  | nil => rfl
  | cons a as ih => exact congrArg (_ :: ·) ih

/-- Every exchange of a life is over the last packet of some beginning of it. -/
theorem exists_of_mem_history {life : List Incident} {x : Exchange page σ}
    (h : x ∈ s.history config chip life) :
    ∃ past a, past ++ [.packet a] <+: life ∧
      x = (s.live config chip past).exchange config chip a := by
  induction life generalizing s with
  | nil => simp [history] at h
  | cons incident life ih =>
      cases incident with
      | packet a =>
          rcases List.mem_cons.mp h with rfl | h
          · exact ⟨[], a, by simp, rfl⟩
          · obtain ⟨past, a', hpast, rfl⟩ := ih h
            exact ⟨.packet a :: past, a', List.cons_prefix_cons.mpr ⟨rfl, hpast⟩, rfl⟩
      | powerCycle =>
          obtain ⟨past, a', hpast, rfl⟩ := ih h
          exact ⟨.powerCycle :: past, a', List.cons_prefix_cons.mpr ⟨rfl, hpast⟩, rfl⟩

theorem live_consistent (hs : s.engine.Consistent) (life : List Incident) :
    (s.live config chip life).engine.Consistent := by
  induction life generalizing s with
  | nil => exact hs
  | cons incident life ih =>
      cases incident with
      | packet a => exact ih (exchange_consistent hs)
      | powerCycle => exact ih Engine.consistent_fresh

theorem live_sound (atomic : chip.Atomic view) (sound : view.Sound s.flash) (life : List Incident) :
    view.Sound (s.live config chip life).flash := by
  induction life generalizing s with
  | nil => exact sound
  | cons incident life ih =>
      cases incident with
      | packet a => exact ih (exchange_replays atomic sound).1
      | powerCycle => exact ih sound

end Snapshot

/-! ### Exchanges that change the application region -/

namespace Exchange

/-- A call that succeeded had an effect on the application region. -/
def Touches (config : Config) (x : Exchange page σ) : Prop :=
  ∃ event ∈ x.events, event.Touches config

/-- Payload of a transfer led to an erasing or programming call on the application region. -/
def Reprograms (config : Config) (x : Exchange page σ) : Prop :=
  x.CarriesPayload ∧ x.Touches config

theorem Touches.erases_or_writes {x : Exchange page σ} (h : x.Touches config) :
    x.Erases ∨ x.Writes := by
  obtain ⟨event, hmem, htouches⟩ := h
  unfold Event.Touches at htouches
  split at htouches
  · exact Or.inl ⟨_, _, _, hmem⟩
  · exact Or.inr ⟨_, _, _, hmem⟩
  · exact htouches.elim

end Exchange

namespace Snapshot

variable {a : Arrival}

theorem exchange_sameRegion (atomic : chip.Atomic view) (sound : view.Sound s.flash)
    (h : ¬(s.exchange config chip a).Touches config) :
    config.SameRegion (view.content s.flash)
      (view.content (s.exchange config chip a).after.flash) := by
  rw [(exchange_replays atomic sound).2]
  exact FlashContent.replay_of_not_touches fun event hmem htouches => h ⟨event, hmem, htouches⟩

/-- After a `done` that is accepted the image can be started. -/
theorem exchange_bootable_of_accepts (atomic : chip.Atomic view) (sound : view.Sound s.flash)
    (hrecord : config.HoldsRecord) (h : (s.exchange config chip a).Accepts .done) :
    config.Bootable (view.content (s.exchange config chip a).after.flash) := by
  obtain ⟨hanswer, hdone⟩ := h
  rw [Config.bootable_iff hrecord]
  cases hrefusal : s.engine.doneRefusal? chip with
  | some err =>
      have hrefused := (exchange_done_refused hdone hrefusal).1
      rw [hanswer] at hrefused
      cases hrefused
  | none =>
      have houtcome := exchange_done_outcome atomic sound hdone hrefusal
      rw [hanswer] at houtcome
      exact houtcome.confirmed_of_accepted

/-- A bootable device stays so, and flash as it is, until payload reaches the application region. -/
theorem exchange_of_bootable (atomic : chip.Atomic view) (sound : view.Sound s.flash)
    (hs : s.engine.Consistent) (hrecord : config.HoldsRecord)
    (hbootable : config.Bootable (view.content s.flash))
    (hpayload : ¬(s.exchange config chip a).Reprograms config) :
    config.Bootable (view.content (s.exchange config chip a).after.flash) ∧
      ¬(s.exchange config chip a).Touches config := by
  have htouches : ¬(s.exchange config chip a).Touches config := by
    intro htouches
    have hwrites : (s.exchange config chip a).Asks .done ∧ (s.exchange config chip a).Writes := by
      rcases htouches.erases_or_writes with herases | hwrites
      · exact absurd ⟨carriesPayload_of_erases hs herases, htouches⟩ hpayload
      · rcases carriesPayload_or_asks_done_of_writes hs hwrites with hcarries | hdone
        · exact absurd ⟨hcarries, htouches⟩ hpayload
        · exact ⟨hdone, hwrites⟩
    obtain ⟨hdone, hwrites⟩ := hwrites
    have hrefusal := exchange_done_of_writes hdone hwrites
    obtain ⟨_, _, _, hmem⟩ := hwrites
    have hprovisional := (exchange_done_outcome atomic sound hdone hrefusal).provisional_of_write hmem
    have hconfirmed := (Config.bootable_iff hrecord).mp hbootable
    exact absurd (hprovisional.symm.trans hconfirmed) (by decide)
  exact ⟨((exchange_sameRegion atomic sound htouches).bootable_iff hrecord).mpr hbootable, htouches⟩

end Snapshot

/-! ### How a device becomes bootable -/

/-- If the device would start its application, then the application region is as it was at first, or
a `done` was accepted after the last payload that changed the region. -/
def BootableOnlyThroughDone (config : Config) (first : FlashContent)
    (history : List (Exchange page σ)) (content : FlashContent) : Prop :=
  config.Bootable content →
    config.SameRegion first content ∨
      ∃ earlier done since, history = earlier ++ done :: since ∧ done.Accepts .done ∧
        ∀ x ∈ since, ¬x.Reprograms config

namespace Snapshot

/-- After a `done` that is accepted a device is bootable until payload changes the region. -/
theorem live_bootable (atomic : chip.Atomic view) (sound : view.Sound s.flash)
    (hs : s.engine.Consistent) (hrecord : config.HoldsRecord) (life : List Incident)
    {earlier since : List (Exchange page σ)} {done : Exchange page σ}
    (hhistory : s.history config chip life = earlier ++ done :: since)
    (haccepts : done.Accepts .done) (hsince : ∀ x ∈ since, ¬x.Reprograms config) :
    config.Bootable (view.content (s.live config chip life).flash) := by
  induction life using List.reverseRecOn generalizing since with
  | nil => simp [history] at hhistory
  | append_singleton past incident ih =>
      cases incident with
      | powerCycle =>
          rw [live_powerCycle]
          rw [history_powerCycle] at hhistory
          exact ih hhistory hsince
      | packet a =>
          have hsound : view.Sound (s.live config chip past).flash := live_sound atomic sound past
          rw [live_packet]
          rw [history_packet] at hhistory
          rcases cut_concat hhistory with ⟨rfl, _⟩ | ⟨since, rfl, hpast⟩
          · exact exchange_bootable_of_accepts atomic hsound hrecord haccepts
          · have hbefore := ih hpast fun y hy => hsince y (List.mem_append_left _ hy)
            exact (exchange_of_bootable atomic hsound (live_consistent hs past) hrecord hbefore
              (hsince _ (List.mem_append_right _ List.mem_cons_self))).1

theorem bootableOnlyThroughDone_of_forall (atomic : chip.Atomic view) (sound : view.Sound s.flash)
    (life : List Incident)
    (h : ∀ x ∈ s.history config chip life, x.Touches config → ¬x.Accepts .done →
      ¬config.Bootable (view.content x.after.flash) ∨
        config.SameRegion (view.content s.flash) (view.content x.after.flash))
    (hrecord : config.HoldsRecord) :
    BootableOnlyThroughDone config (view.content s.flash) (s.history config chip life)
      (view.content (s.live config chip life).flash) := by
  induction life using List.reverseRecOn with
  | nil => exact fun _ => Or.inl fun _ _ => rfl
  | append_singleton past incident ih =>
      cases incident with
      | powerCycle =>
          rw [live_powerCycle, history_powerCycle]
          exact ih (by rwa [history_powerCycle] at h)
      | packet a =>
          rw [live_packet, history_packet]
          rw [history_packet] at h
          have hpast := ih fun x hx => h x (List.mem_append_left _ hx)
          have hlast := h _ (List.mem_append_right _ List.mem_cons_self)
          intro hbootable
          by_cases htouches : ((s.live config chip past).exchange config chip a).Touches config
          · by_cases haccepts : ((s.live config chip past).exchange config chip a).Accepts .done
            · exact Or.inr ⟨_, _, [], rfl, haccepts, by simp⟩
            · exact Or.inl ((hlast htouches haccepts).resolve_left fun hno => hno hbootable)
          · have hsound : view.Sound (s.live config chip past).flash := live_sound atomic sound past
            have hsame := exchange_sameRegion atomic hsound htouches
            rcases hpast ((hsame.bootable_iff hrecord).mp hbootable) with
              hfirst | ⟨earlier, done, since, hhistory, haccepts, hsince⟩
            · exact Or.inl fun x hx => (hsame x hx).trans (hfirst x hx)
            · refine Or.inr ⟨earlier, done, since ++ [(s.live config chip past).exchange config chip a],
                by simp [hhistory], haccepts, ?_⟩
              intro y hy
              rcases List.mem_append.mp hy with hy | hy
              · exact hsince y hy
              · rw [List.mem_singleton.mp hy]
                exact fun hreprograms => htouches hreprograms.2

/-- At every point of a life the device is bootable only through `done` exactly if every exchange
that changed the application region, an accepted `done` apart, left a record that is not confirmed or
the region as it was at first. -/
theorem bootableOnlyThroughDone_iff (config : Config) (hrecord : config.HoldsRecord)
    (chip : NorFlash σ) (view : NorFlash.View σ) (atomic : chip.Atomic view) (flash : σ)
    (sound : view.Sound flash) (life : List Incident) :
    let first : Snapshot page σ := { flash }
    (∀ past, past <+: life →
      BootableOnlyThroughDone config (view.content flash) (first.history config chip past)
        (view.content (first.live config chip past).flash)) ↔
    ∀ x ∈ first.history config chip life, x.Touches config → ¬x.Accepts .done →
      ¬config.Bootable (view.content x.after.flash) ∨
        config.SameRegion (view.content flash) (view.content x.after.flash) := by
  intro first
  have hfirst : first.engine.Consistent := Engine.consistent_fresh
  constructor
  · intro hclaim x hx htouches hnot
    obtain ⟨past, a, hprefix, rfl⟩ := exists_of_mem_history hx
    have hpoint := hclaim _ hprefix
    rw [live_packet, history_packet] at hpoint
    by_contra hleft
    rw [not_or, not_not] at hleft
    rcases hpoint hleft.1 with hsame | ⟨earlier, done, since, hhistory, haccepts, hsince⟩
    · exact hleft.2 hsame
    · rcases cut_concat hhistory with ⟨rfl, _⟩ | ⟨since, rfl, hpast⟩
      · exact hnot haccepts
      · have hbefore := live_bootable atomic (s := first) sound hfirst hrecord past hpast haccepts
          fun z hz => hsince z (List.mem_append_left _ hz)
        have hsound : view.Sound (first.live config chip past).flash := live_sound atomic sound past
        exact (exchange_of_bootable atomic hsound (live_consistent hfirst past) hrecord hbefore
          (hsince _ (List.mem_append_right _ List.mem_cons_self))).2 htouches
  · intro hcondition past hprefix
    refine bootableOnlyThroughDone_of_forall atomic (s := first) sound past (fun x hx => ?_) hrecord
    obtain ⟨rest, rfl⟩ := hprefix
    exact hcondition x (by rw [history_append]; exact List.mem_append_left _ hx)

end Snapshot

namespace SmallDevice

/-- A chaining vector after which a block of zeros decrypts to a confirmed tag and zeros. -/
def forgedVector : Block := #v[192, 152, 121, 22, 250, 145, 221, 235, 15, 143, 187, 179, 102, 181, 49, 180]

/-- A transfer over the tag whose plaintext carries the confirmed one. -/
def forgery : List Arrival :=
  [command { command := .vector, length := 16 }, data forgedVector.toList,
    command { command := .data, length := 16, address := 32 },
    data (PayloadPacket.encode { address := 32, payload := List.replicate 16 0 })]

theorem forgery_confirms :
    (SmallDevice.run forgery).flash.peek 32 4 = LittleEndian.encode32 RecordTag.confirmedWord := by
  decide +kernel

theorem not_asks_done_of_forgery :
    ∀ a ∈ forgery, a.packet.command?.map (·.command) ≠ some .done := by
  decide

theorem events_check :
    (history check).map (·.events) = [#[], #[.flash (.read 32 4) none]] := by
  decide +kernel

theorem done_accepted : (next check done).Accepts .done := by
  have hanswer : (next check done).answer = .ok () := by decide +kernel
  exact ⟨hanswer, asks_done check⟩

/-- Only `done` touches flash when it follows a check. -/
theorem not_touches_of_check {x : Exchange 16 FlashMemory} (h : x ∈ history check) :
    ¬x.Touches SmallDevice.config := by
  have hmem := List.mem_map_of_mem (f := (·.events)) h
  rw [events_check] at hmem
  rintro ⟨event, hevent, htouches⟩
  rcases List.mem_cons.mp hmem with hnone | hread
  · simp [hnone] at hevent
  · simp only [List.mem_singleton] at hread
    simp only [hread, List.mem_toArray, List.mem_singleton] at hevent
    simp [hevent, Event.Touches] at htouches

end SmallDevice

open SmallDevice in
theorem bootableOnlyThroughDone_check :
    SmallDevice.config.HoldsRecord ∧
      ∀ past, past <+: (check ++ [done]).map .packet →
        BootableOnlyThroughDone SmallDevice.config (FlashMemory.view.content SmallDevice.flash)
          (Snapshot.history SmallDevice.config SmallDevice.chip start past)
          (FlashMemory.view.content
            (Snapshot.live SmallDevice.config SmallDevice.chip start past).flash) := by
  have hrecord : SmallDevice.config.HoldsRecord := by decide
  refine ⟨hrecord, (Snapshot.bootableOnlyThroughDone_iff SmallDevice.config hrecord SmallDevice.chip
    FlashMemory.view (FlashMemory.chip_atomic 16) SmallDevice.flash flash_sound
    ((check ++ [done]).map .packet)).mpr ?_⟩
  intro x hx htouches hnot
  rw [Snapshot.history_map_packet, Snapshot.exchanges_concat] at hx
  rcases List.mem_append.mp hx with hx | hx
  · exact absurd htouches (not_touches_of_check hx)
  · rw [List.mem_singleton.mp hx] at hnot
    exact absurd done_accepted hnot

open SmallDevice in
/-- A device can become bootable by a transfer alone. -/
theorem bootable_without_done :
    ¬BootableOnlyThroughDone SmallDevice.config (FlashMemory.view.content SmallDevice.flash)
      (Snapshot.history SmallDevice.config SmallDevice.chip start (forgery.map .packet))
      (FlashMemory.view.content
        (Snapshot.live SmallDevice.config SmallDevice.chip start (forgery.map .packet)).flash) := by
  have hpeek : (FlashMemory.view.content (SmallDevice.run forgery).flash).peek 32 4 =
      LittleEndian.encode32 RecordTag.confirmedWord := by
    rw [FlashMemory.content_peek]
    exact forgery_confirms
  rw [SmallDevice.run] at hpeek
  rw [Snapshot.live_map_packet]
  generalize Snapshot.run SmallDevice.config SmallDevice.chip start forgery = after at hpeek ⊢
  intro h
  have hbootable : SmallDevice.config.Bootable (FlashMemory.view.content after.flash) := by
    rw [Config.bootable_iff (by decide), FlashContent.word]
    have htag : SmallDevice.config.tagAddress.toNat = 32 := by decide
    rw [htag, hpeek]
    decide
  rcases h hbootable with hsame | ⟨earlier, done, since, hhistory, haccepts, _⟩
  · have hbyte := congrArg (·[2]?) hpeek
    have hafter := hsame 34 ⟨by decide, by decide⟩
    have hbefore : FlashMemory.view.content SmallDevice.flash 34 = 0xff := by decide +kernel
    rw [hbefore] at hafter
    simp [FlashContent.peek, hafter] at hbyte
    revert hbyte
    decide
  · have hmem : done ∈ Snapshot.history SmallDevice.config SmallDevice.chip start
        (forgery.map .packet) := by
      rw [hhistory]
      simp
    obtain ⟨past, a, ⟨rest, hlife⟩, rfl⟩ := Snapshot.exists_of_mem_history hmem
    have ha : Incident.packet a ∈ forgery.map Incident.packet := by
      rw [← hlife]
      simp
    obtain ⟨packet, hpacket, hcommand⟩ := haccepts.2
    rw [Snapshot.exchange_arrival] at hpacket
    apply not_asks_done_of_forgery a (by simpa using ha)
    rw [hpacket, Option.map_some, hcommand]

end FirmwareUpdate
