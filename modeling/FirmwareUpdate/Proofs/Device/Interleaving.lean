import FirmwareUpdate.Proofs.Device.Link
import FirmwareUpdate.Proofs.Engine.Exchange
import FirmwareUpdate.Device.Turns

/-!
# The queue and the engine behind it

However the moves of radio and updater fall, the updater does what a device without a queue does that
handles the same items one after another: every write that found room and every end of a connection,
in the order of their arrival. What is still missing waits in the queue, with the updater, or with
the radio that looks for room.
-/

namespace FirmwareUpdate.Device

variable {σ : Type} {config : Config} {chip : NorFlash σ}

/-! ### Acts of the updater -/

/-- Something that the updater did or tried to do; whether it reached anybody is left out. -/
inductive Act where
  | takes (work : Work)
  | calls (call : FlashCall) (failure : Option FlashError)
  | tells (c : Characteristic) (value : Bytes)
  | requests (parameters : Connection.Parameters)
  | reports (figures : Throughput)
  | resets
deriving DecidableEq

/-- The act behind something that happened, unless the radio was behind it. -/
def Occurrence.act? : Occurrence → Option Act
  | .taken work => some (.takes work)
  | .flash call failure => some (.calls call failure)
  | .notified c value _ => some (.tells c value)
  | .requested parameters _ => some (.requests parameters)
  | .reported figures => some (.reports figures)
  | .stopped .reset => some .resets
  | _ => none

def relayed : Event → Act
  | .flash call failure => .calls call failure
  | .progress notice => .tells .progress notice.encode
  | .connection parameters => .requests parameters
  | .report figures => .reports figures

/-- The engine itself only tells of progress. -/
theorem tells_relayed {event : Event} {c : Characteristic} {value : Bytes}
    (h : relayed event = .tells c value) : c = .progress := by
  cases event <;> simp_all [relayed]

def Deed.act : Deed → Act
  | .relay event => relayed event
  | .acknowledge c accepted => .tells c (UpdateMode.acknowledgement accepted)
  | .reset => .resets

namespace UpdateMode

/-- What the updater did so far. -/
def acts (m : UpdateMode σ) : List Act := m.log.toList.filterMap Occurrence.act?

/-- The end of a connection that the radio has not been able to announce yet. -/
def owed (m : UpdateMode σ) : List Work :=
  match m.radio with
  | .closing => [.disconnected]
  | _ => []

/-- What a happening brings for the queue: a write that the radio lets through, or the end of the
connection. -/
def brought? (m : UpdateMode σ) (h : Happening) : Option Work :=
  match m.stopped, m.radio, h with
  | none, .connected _, .write .control value =>
    if value.length ≤ Characteristic.control.maxLength then some (.packet (.control value)) else none
  | none, .connected _, .write .data value =>
    if value.length ≤ Characteristic.data.maxLength then some (.packet (.data value)) else none
  | none, .connected _, .disconnect => some .disconnected
  | _, _, _ => none

/-- What a happening brings, with the number of items that wait at that moment. -/
def arrivals (m : UpdateMode σ) (h : Happening) : List Incoming :=
  (m.brought? h).toList.map fun work => { work, waiting := m.queue.toList.length }

variable {m : UpdateMode σ} {o : Occurrence}

theorem acts_record : (m.record o).acts = m.acts ++ o.act?.toList := by
  cases h : o.act? <;> simp [acts, record, h]

theorem acts_perform (d : Deed) : (m.perform d).acts = m.acts ++ [d.act] := by
  cases d with
  | relay event => cases event <;> exact acts_record
  | acknowledge c accepted => exact acts_record
  | reset => exact acts_record

theorem queue_perform (d : Deed) : (m.perform d).queue = m.queue := by
  cases d with
  | relay event => cases event <;> rfl
  | acknowledge c accepted => rfl
  | reset => rfl

theorem radio_perform (d : Deed) : (m.perform d).radio = m.radio := by
  cases d with
  | relay event => cases event <;> rfl
  | acknowledge c accepted => rfl
  | reset => rfl

theorem engine_perform (d : Deed) :
    (m.perform d).engine = m.engine ∧ (m.perform d).flash = m.flash := by
  cases d with
  | relay event => cases event <;> exact ⟨rfl, rfl⟩
  | acknowledge c accepted => exact ⟨rfl, rfl⟩
  | reset => exact ⟨rfl, rfl⟩

/-! ### The radio -/

/-- What a move of the radio leaves alone. -/
structure Apart (m m' : UpdateMode σ) : Prop where
  engine : m'.engine = m.engine
  flash : m'.flash = m.flash
  acts : m'.acts = m.acts

theorem apart_of_log {m' : UpdateMode σ} (hengine : m'.engine = m.engine)
    (hflash : m'.flash = m.flash) (hlog : m'.log = m.log) : m.Apart m' where
  engine := hengine
  flash := hflash
  acts := congrArg (·.toList.filterMap Occurrence.act?) hlog

theorem Apart.record {m' : UpdateMode σ} (h : m.Apart m') (ho : o.act? = none) :
    m.Apart (m'.record o) where
  engine := h.engine
  flash := h.flash
  acts := by rw [acts_record, ho, Option.toList_none, List.append_nil, h.acts]

theorem apart_reopen : m.Apart m.reopen := by
  unfold reopen
  split
  · refine Apart.record (Apart.record ?_ rfl) rfl
    exact apart_of_log rfl rfl rfl
  · exact apart_of_log rfl rfl rfl

theorem apart_enqueue (packet : Packet) : m.Apart (m.enqueue packet) := by
  unfold enqueue
  split
  · refine Apart.record ?_ rfl
    exact apart_of_log rfl rfl rfl
  · refine Apart.record ?_ rfl
    exact apart_of_log rfl rfl rfl

theorem written_of_carries {c : Characteristic} {value : Bytes} {packet : Packet}
    (h : Carries c value packet) : m.written c value = m.enqueue packet := by
  cases h with
  | control h => exact if_neg (Nat.not_lt.mpr h)
  | data h => exact if_neg (Nat.not_lt.mpr h)

theorem written_of_not_carries {c : Characteristic} {value : Bytes}
    (h : ∀ packet, ¬Carries c value packet) : m.written c value = m.record .refused := by
  cases c with
  | control => exact if_pos (Nat.not_le.mp fun hfits => h _ (.control hfits))
  | data => exact if_pos (Nat.not_le.mp fun hfits => h _ (.data hfits))
  | progress => exact ite_self _

theorem arrivals_of_carries {subscriptions : Subscriptions} (hstopped : m.stopped = none)
    (hradio : m.radio = .connected subscriptions) {c : Characteristic} {value : Bytes}
    {packet : Packet} (h : Carries c value packet) :
    m.arrivals (.write c value) = [⟨.packet packet, m.queue.toList.length⟩] := by
  cases h with
  | control h => simp [arrivals, brought?, hstopped, hradio, Characteristic.maxLength, h]
  | data h => simp [arrivals, brought?, hstopped, hradio, Characteristic.maxLength, h]

theorem arrivals_of_not_carries {subscriptions : Subscriptions} (hstopped : m.stopped = none)
    (hradio : m.radio = .connected subscriptions) {c : Characteristic} {value : Bytes}
    (h : ∀ packet, ¬Carries c value packet) : m.arrivals (.write c value) = [] := by
  cases c with
  | control =>
      have hlong : ¬value.length ≤ ControlPacket.size := fun hfits => h _ (.control hfits)
      simp [arrivals, brought?, hstopped, hradio, Characteristic.maxLength, hlong]
  | data =>
      have hlong : ¬value.length ≤ Connection.attMtu := fun hfits => h _ (.data hfits)
      simp [arrivals, brought?, hstopped, hradio, Characteristic.maxLength, hlong]
  | progress => simp [arrivals, brought?, hstopped, hradio]

theorem apart_written (c : Characteristic) (value : Bytes) : m.Apart (m.written c value) := by
  by_cases h : ∃ packet, Carries c value packet
  · obtain ⟨packet, h⟩ := h
    rw [written_of_carries h]
    exact apart_enqueue packet
  · rw [not_exists] at h
    rw [written_of_not_carries h]
    refine Apart.record ?_ rfl
    exact apart_of_log rfl rfl rfl

/-- Whatever happens, the radio keeps apart from engine and flash. -/
theorem apart_take (h : Happening) : m.Apart (m.take h) := by
  obtain ⟨engine, flash, queue, radio, clock, notificationsFail, stopped, log⟩ := m
  cases stopped with
  | some stop => exact apart_of_log rfl rfl rfl
  | none =>
      cases radio with
      | advertising =>
          cases h with
          | advertisingFails =>
              refine Apart.record ?_ rfl
              exact apart_of_log rfl rfl rfl
          | _ => exact apart_of_log rfl rfl rfl
      | connected subscriptions =>
          cases h with
          | write c value => exact apart_written c value
          | disconnect => exact ⟨apart_reopen.engine, apart_reopen.flash, apart_reopen.acts⟩
          | _ => exact apart_of_log rfl rfl rfl
      | closing => cases h <;> exact apart_of_log rfl rfl rfl

end UpdateMode

/-! ### Handling items in their order -/

/-- What reaches the engine of an item. -/
def Service.call? : Service → Option Arrival
  | ⟨.packet packet, now⟩ => some ⟨now, packet⟩
  | ⟨.disconnected, _⟩ => none

/-- What reaches the engine of items handled one after another. -/
def calls (services : List Service) : List Arrival := services.filterMap Service.call?

/-- What the peer is told about a packet: one byte for every control packet, and one for a data
packet that was rejected. -/
def reply (packet : Packet) (answer : Except UpdateError Unit) : List Act :=
  match packet, answer with
  | .control _, .ok _ => [.tells .control [0]]
  | .control _, .error _ => [.tells .control [1]]
  | .data _, .ok _ => []
  | .data _, .error _ => [.tells .data [1]]

/-- What is done about one item, from its being taken to the end. -/
def episode (config : Config) (chip : NorFlash σ) (s : Snapshot Layout.pageSize σ) :
    Service → List Act
  | ⟨.packet packet, now⟩ =>
    let x := s.exchange config chip ⟨now, packet⟩
    .takes (.packet packet) :: (x.events.toList.map relayed ++ reply packet x.answer)
  | ⟨.disconnected, _⟩ =>
    .takes .disconnected :: if s.engine.resetRequested then [.resets] else []

/-- What a device without a queue does, which takes up an item only when the last one is done. -/
def sequence (config : Config) (chip : NorFlash σ) :
    Snapshot Layout.pageSize σ → List Service → List Act
  | _, [] => []
  | s, service :: services =>
    episode config chip s service ++
      sequence config chip (s.run config chip service.call?.toList) services

variable {s : Snapshot Layout.pageSize σ}

theorem calls_concat (services : List Service) (service : Service) :
    calls (services ++ [service]) = calls services ++ service.call?.toList := by
  cases h : service.call? <;> simp [calls, h]

theorem sequence_concat (services : List Service) (service : Service) :
    sequence config chip s (services ++ [service]) =
      sequence config chip s services ++
        episode config chip (s.run config chip (calls services)) service := by
  induction services generalizing s with
  | nil => exact List.append_nil _
  | cons first services ih =>
      have hcalls : calls (first :: services) = first.call?.toList ++ calls services := by
        cases h : first.call? <;> simp [calls, h]
      simp only [List.cons_append, sequence, ih, hcalls, Snapshot.run_append, List.append_assoc]

namespace UpdateMode

variable {m : UpdateMode σ}

/-- The engine and the flash of a device. -/
def snapshot (m : UpdateMode σ) : Snapshot Layout.pageSize σ := ⟨m.engine, m.flash⟩

/-- A packet undertaken is an exchange of the engine. -/
theorem undertake_packet (now : UInt64) (packet : Packet) :
    m.undertake config chip now (.packet packet) =
      let x := m.snapshot.exchange config chip ⟨now, packet⟩
      (x.events.toList.map .relay ++ acknowledgements packet x.answer.isOk,
        { m with engine := x.after.engine, flash := x.after.flash }) := by
  simp only [undertake, Snapshot.exchange, EStateM.run, snapshot]
  cases Engine.receive config chip now packet (m.engine, { flash := m.flash }) <;> rfl

theorem act_acknowledgements (packet : Packet) (answer : Except UpdateError Unit) :
    (acknowledgements packet answer.isOk).map Deed.act = reply packet answer := by
  cases packet <;> cases answer <;> rfl

/-- What an item asks for is what its episode consists of. -/
theorem act_undertake (now : UInt64) (work : Work) :
    .takes work :: (m.undertake config chip now work).1.map Deed.act =
      episode config chip m.snapshot ⟨work, now⟩ := by
  cases work with
  | packet packet =>
      rw [undertake_packet]
      simp only [episode, List.map_append, List.map_map, act_acknowledgements]
      rfl
  | disconnected =>
      by_cases hreset : m.engine.resetRequested = true <;>
        simp [undertake, episode, snapshot, hreset, Deed.act]

theorem snapshot_undertake (now : UInt64) (work : Work) :
    (m.undertake config chip now work).2.snapshot =
      m.snapshot.run config chip (Service.call? ⟨work, now⟩).toList := by
  cases work with
  | packet packet => rw [undertake_packet]; rfl
  | disconnected => rfl

/-- The engine's work leaves the queue, the radio and the log alone, and stops nothing. -/
theorem kept_undertake (now : UInt64) (work : Work) :
    let m' := (m.undertake config chip now work).2
    m'.queue = m.queue ∧ m'.radio = m.radio ∧ m'.log = m.log ∧ m'.stopped = m.stopped := by
  cases work with
  | packet packet => rw [undertake_packet]; exact ⟨rfl, rfl, rfl, rfl⟩
  | disconnected => exact ⟨rfl, rfl, rfl, rfl⟩

/-! ### The undisturbed updater -/

/-- To submit a packet is to undertake it and then relay what the engine did. -/
theorem submit_eq_foldl (packet : Packet) :
    m.submit config chip packet =
      let x := m.snapshot.exchange config chip ⟨m.clock, packet⟩
      (x.answer.isOk, (x.events.toList.map .relay).foldl perform
        { m with engine := x.after.engine, flash := x.after.flash }) := by
  simp only [submit, Snapshot.exchange, EStateM.run, snapshot, List.foldl_map, Array.foldl_toList]
  cases Engine.receive config chip m.clock packet (m.engine, { flash := m.flash }) <;> rfl

/-- To handle an item is to undertake it and then do every deed. -/
theorem handle_eq_foldl (work : Work) :
    m.handle config chip work =
      let begun := m.undertake config chip m.clock work
      begun.1.foldl perform begun.2 := by
  cases work with
  | packet packet =>
      rw [undertake_packet]
      generalize hx : m.snapshot.exchange config chip ⟨m.clock, packet⟩ = x
      cases packet with
      | control bytes =>
          simp only [handle, submit_eq_foldl, hx, List.foldl_append]
          rfl
      | data bytes =>
          simp only [handle, submit_eq_foldl, hx, List.foldl_append, acknowledgements]
          cases x.answer.isOk <;> rfl
  | disconnected =>
      simp only [handle, undertake]
      split <;> rfl

theorem stopped_perform {deed : Deed} (h : deed ≠ .reset) :
    (m.perform deed).stopped = m.stopped := by
  cases deed with
  | relay event => cases event <;> rfl
  | acknowledge c accepted => rfl
  | reset => exact absurd rfl h

/-- No packet asks the updater for a reset; the end of a connection does if the engine wants one. -/
theorem reset_mem_undertake_iff {now : UInt64} {work : Work} :
    .reset ∈ (m.undertake config chip now work).1 ↔
      work = .disconnected ∧ m.engine.resetRequested = true := by
  cases work with
  | packet packet =>
      rw [undertake_packet]
      refine iff_of_false (fun hmem => ?_) (by simp)
      rcases List.mem_append.mp hmem with hrelay | hanswer
      · simp at hrelay
      · cases packet <;> simp [acknowledgements] at hanswer
  | disconnected =>
      by_cases hreset : m.engine.resetRequested = true <;> simp [undertake, hreset]

/-- The device is reset at the end of an item if at all. -/
theorem reset_notMem_dropLast_undertake (now : UInt64) (work : Work) :
    .reset ∉ (m.undertake config chip now work).1.dropLast := by
  intro h
  obtain ⟨rfl, hreset⟩ := reset_mem_undertake_iff.mp (List.dropLast_subset _ h)
  simp [undertake, hreset] at h

end UpdateMode

namespace Interleaved

variable {m : UpdateMode σ}

/-- An updater that is not interrupted does all that is pending. -/
theorem run_pending (now : UInt64) {deeds : List Deed} (hdeeds : .reset ∉ deeds.dropLast)
    (hm : m.stopped = none) :
    run config chip ⟨m, deeds⟩ (List.replicate deeds.length (.advance now)) =
      ⟨deeds.foldl UpdateMode.perform m, []⟩ := by
  induction deeds generalizing m with
  | nil => rfl
  | cons deed deeds ih =>
      have hfirst : (⟨m, deed :: deeds⟩ : Interleaved σ).move config chip (.advance now) =
          ⟨m.perform deed, deeds⟩ := by
        simp only [Interleaved.move, advance, hm]
      cases deeds with
      | nil => exact hfirst
      | cons next deeds =>
          rw [List.dropLast_cons_of_ne_nil (List.cons_ne_nil _ _), List.mem_cons, not_or] at hdeeds
          calc
            _ = run config chip ⟨m.perform deed, next :: deeds⟩
                (List.replicate (next :: deeds).length (.advance now)) :=
              congrArg (run config chip · _) hfirst
            _ = _ := ih hdeeds.2 ((UpdateMode.stopped_perform (Ne.symm hdeeds.1)).trans hm)

/-- An updater that is not interrupted serves an item as `UpdateMode.serve` does. -/
theorem exists_run_eq_serve (m : UpdateMode σ) :
    ∃ n, run config chip { mode := m } (List.replicate n (.advance m.clock)) =
      { mode := m.serve config chip } := by
  unfold UpdateMode.serve
  split
  · next work queue hstopped hpop =>
      let begun := (UpdateMode.record { m with queue } (.taken work)).undertake config chip m.clock
        work
      have hbegun : begun.2.stopped = none := by
        cases work with
        | packet packet => simp only [begun, UpdateMode.undertake_packet]; exact hstopped
        | disconnected => exact hstopped
      have htake : ({ mode := m } : Interleaved σ).move config chip (.advance m.clock) =
          ⟨begun.2, begun.1⟩ := by
        simp only [Interleaved.move, advance, hstopped, hpop, begun]
      refine ⟨begun.1.length + 1, ?_⟩
      calc
        _ = run config chip ⟨begun.2, begun.1⟩
            (List.replicate begun.1.length (.advance m.clock)) :=
          congrArg (run config chip · _) htake
        _ = ⟨begun.1.foldl UpdateMode.perform begun.2, []⟩ :=
          run_pending m.clock (UpdateMode.reset_notMem_dropLast_undertake m.clock work) hbegun
        _ = _ := by rw [UpdateMode.handle_eq_foldl]; rfl
  · exact ⟨0, rfl⟩

/-! ### Interleaved moves -/

variable {s : Interleaved σ} {flash : σ}

/-- What a move brings for the queue. -/
def arrived (s : Interleaved σ) : Move → List Incoming
  | .take h => s.mode.arrivals h
  | .reopen | .advance _ => []

/-- What the moves of a run bring for the queue, in the order of arrival. -/
def arrivals (config : Config) (chip : NorFlash σ) : Interleaved σ → List Move → List Incoming
  | _, [] => []
  | s, move :: moves => s.arrived move ++ arrivals config chip (s.move config chip move) moves

/-- The item that the updater takes up by a move. -/
def served (s : Interleaved σ) : Move → List Service
  | .advance now =>
    match s.mode.stopped, s.pending, s.mode.queue.pop? with
    | none, [], some (work, _) => [⟨work, now⟩]
    | _, _, _ => []
  | .take _ | .reopen => []

/-- The items that the updater takes up in a run, first to last. -/
def services (config : Config) (chip : NorFlash σ) : Interleaved σ → List Move → List Service
  | _, [] => []
  | s, move :: moves => s.served move ++ services config chip (s.move config chip move) moves

/-- The exchanges over the packets that the updater of a device takes up in a run from its start. -/
def handled (config : Config) (chip : NorFlash σ) (flash : σ) (moves : List Move) :
    List (Exchange Layout.pageSize σ) :=
  Snapshot.exchanges config chip { flash } (calls ((start flash).services config chip moves))

/-- What the updater did, and what it is about to do about the item it took last. -/
def acts (s : Interleaved σ) : List Act := s.mode.acts ++ s.pending.map Deed.act

/-- A move of the updater: it can do nothing, does what is due, or takes the oldest item. -/
theorem advance_cases (config : Config) (chip : NorFlash σ) (s : Interleaved σ) (now : UInt64) :
    ((s.mode.stopped = none → s.pending = [] ∧ s.mode.queue.toList = []) ∧
        s.served (.advance now) = [] ∧ s.advance config chip now = s) ∨
      (∃ deed deeds, s.mode.stopped = none ∧ s.pending = deed :: deeds ∧
        s.served (.advance now) = [] ∧
        s.advance config chip now = ⟨s.mode.perform deed, deeds⟩) ∨
      ∃ work queue, s.mode.stopped = none ∧ s.pending = [] ∧
        s.mode.queue.pop? = some (work, queue) ∧ s.served (.advance now) = [⟨work, now⟩] ∧
        let begun := (UpdateMode.record { s.mode with queue } (.taken work)).undertake config chip
          now work
        s.advance config chip now = ⟨begun.2, begun.1⟩ := by
  cases hstopped : s.mode.stopped with
  | some stop => exact Or.inl (by simp [served, advance, hstopped])
  | none =>
      cases hpending : s.pending with
      | cons deed deeds =>
          exact Or.inr (Or.inl ⟨deed, deeds, rfl, rfl, by simp [served, advance, hstopped, hpending]⟩)
      | nil =>
          cases hpop : s.mode.queue.pop? with
          | none =>
              have hempty := BoundedQueue.pop?_eq_none_iff.mp hpop
              exact Or.inl (by simp [served, advance, hstopped, hpending, hpop, hempty])
          | some popped =>
              refine Or.inr (Or.inr ⟨popped.1, popped.2, rfl, rfl, rfl, ?_⟩)
              simp [served, advance, hstopped, hpending, hpop]

/-! ### The queue as the moves leave it -/

/-- What can be told of the device where radio and updater meet. -/
def link (s : Interleaved σ) : Link where
  stopped := s.mode.stopped
  radio := s.mode.radio
  waiting := s.mode.queue.toList
  due := s.pending

/-- A radio without a peer announces what it owes once there is room. -/
theorem linkStep_reopen (s : Interleaved σ) :
    LinkStep s.link .reopen [] [] { s with mode := s.mode.reopen }.link := by
  obtain ⟨⟨engine, flash, queue, radio, clock, notificationsFail, stopped, log⟩, pending⟩ := s
  cases stopped with
  | some stop => exact .idle
  | none =>
      cases radio with
      | advertising => exact .busy (by simp)
      | connected subscriptions => exact .busy (by simp)
      | closing =>
          cases hpush : queue.push? .disconnected with
          | some queue' =>
              obtain ⟨hroom, hqueue⟩ := BoundedQueue.push?_eq_some_iff.mp hpush
              simp only [link, UpdateMode.reopen, hpush, UpdateMode.record, hqueue]
              exact .announce hroom
          | none =>
              simp only [link, UpdateMode.reopen, hpush]
              exact .wait (BoundedQueue.push?_eq_none_iff.mp hpush)

/-- A write that a characteristic has room for is queued or dropped, any other is refused. -/
theorem linkStep_write {subscriptions : Subscriptions} (hstopped : s.mode.stopped = none)
    (hradio : s.mode.radio = .connected subscriptions) (c : Characteristic) (value : Bytes) :
    LinkStep s.link (.take (.write c value)) (s.mode.arrivals (.write c value)) []
      { s with mode := s.mode.written c value }.link := by
  by_cases h : ∃ packet, Carries c value packet
  · obtain ⟨packet, h⟩ := h
    rw [UpdateMode.written_of_carries h, UpdateMode.arrivals_of_carries hstopped hradio h]
    unfold UpdateMode.enqueue
    cases hpush : s.mode.queue.push? (.packet packet) with
    | some queue =>
        obtain ⟨hroom, hqueue⟩ := BoundedQueue.push?_eq_some_iff.mp hpush
        simp only [link, UpdateMode.record, hstopped, hradio, hqueue]
        exact .queue h hroom
    | none =>
        simp only [link, UpdateMode.record, hstopped, hradio]
        exact .drop h (BoundedQueue.push?_eq_none_iff.mp hpush)
  · rw [not_exists] at h
    rw [UpdateMode.written_of_not_carries h, UpdateMode.arrivals_of_not_carries hstopped hradio h]
    simp only [link, UpdateMode.record, hstopped, hradio]
    exact .refuse h

/-- A peer that is lost is announced at once if there is room, and is owed otherwise. -/
theorem linkStep_disconnect {subscriptions : Subscriptions} (hstopped : s.mode.stopped = none)
    (hradio : s.mode.radio = .connected subscriptions) :
    LinkStep s.link (.take .disconnect) [⟨.disconnected, s.mode.queue.toList.length⟩] []
      { s with mode := { s.mode with radio := .closing }.reopen }.link := by
  cases hpush : s.mode.queue.push? .disconnected with
  | some queue =>
      obtain ⟨hroom, hqueue⟩ := BoundedQueue.push?_eq_some_iff.mp hpush
      simp only [link, UpdateMode.reopen, hpush, UpdateMode.record, hstopped, hradio, hqueue]
      exact .disconnect hroom
  | none =>
      simp only [link, UpdateMode.reopen, hpush, hstopped, hradio]
      exact .close (BoundedQueue.push?_eq_none_iff.mp hpush)

theorem linkStep_take (s : Interleaved σ) (happening : UpdateMode.Happening) :
    LinkStep s.link (.take happening) (s.mode.arrivals happening) []
      { s with mode := s.mode.take happening }.link := by
  obtain ⟨⟨engine, flash, queue, radio, clock, notificationsFail, stopped, log⟩, pending⟩ := s
  cases stopped with
  | some stop => exact .idle
  | none =>
      cases radio with
      | advertising =>
          cases happening with
          | connect => exact .connect
          | advertisingFails => exact .panic
          | _ => exact .ignore id
      | connected subscriptions =>
          cases happening with
          | write c value => exact linkStep_write rfl rfl c value
          | subscribe c on => exact .subscribe
          | disconnect => exact linkStep_disconnect rfl rfl
          | _ => exact .ignore id
      | closing => cases happening <;> exact .ignore id

/-- An updater that is free takes the oldest item up. -/
theorem linkStep_advance (config : Config) (chip : NorFlash σ) (s : Interleaved σ) (now : UInt64) :
    LinkStep s.link (.advance now) [] (s.served (.advance now)) (s.advance config chip now).link := by
  rcases advance_cases config chip s now with
    ⟨hidle, hserved, hsame⟩ | ⟨deed, deeds, hstopped, hpending, hserved, hnext⟩ |
      ⟨work, queue, hstopped, hpending, hpop, hserved, hnext⟩
  · rw [hserved, hsame]
    cases hstopped : s.mode.stopped with
    | some stop =>
        simp only [link, hstopped]
        exact .idle
    | none =>
        obtain ⟨hpending, hempty⟩ := hidle hstopped
        simp only [link, hstopped, hpending, hempty]
        exact .rest
  · have hperformed : (s.mode.perform deed).stopped = if deed = .reset then some .reset else none := by
      split
      · next hreset =>
          rw [hreset]
          rfl
      · next hreset => exact (UpdateMode.stopped_perform hreset).trans hstopped
    rw [hserved, hnext]
    simp only [link, hstopped, hpending, hperformed, UpdateMode.queue_perform, UpdateMode.radio_perform]
    exact .act
  · let begun := (UpdateMode.record { s.mode with queue } (.taken work)).undertake config chip now work
    obtain ⟨hqueue, hradio, -, hkept⟩ : begun.2.queue = queue ∧ begun.2.radio = s.mode.radio ∧
        begun.2.log = _ ∧ begun.2.stopped = s.mode.stopped :=
      UpdateMode.kept_undertake now work
    rw [hserved, show s.advance config chip now = ⟨begun.2, begun.1⟩ from hnext]
    simp only [link, hqueue, hradio, hkept, hstopped, hpending,
      BoundedQueue.pop?_eq_some_iff.mp hpop]
    exact .serve

/-- Every move does to radio and queue what it should, whoever makes it. -/
theorem linkStep_move (config : Config) (chip : NorFlash σ) (s : Interleaved σ) (move : Move) :
    LinkStep s.link move (s.arrived move) (s.served move) (s.move config chip move).link := by
  cases move with
  | take happening => exact linkStep_take s happening
  | reopen => exact linkStep_reopen s
  | advance now => exact linkStep_advance config chip s now

theorem linkRun_run (config : Config) (chip : NorFlash σ) (s : Interleaved σ) (moves : List Move) :
    LinkRun s.link moves (s.arrivals config chip moves) (s.services config chip moves)
      (s.run config chip moves).link := by
  induction moves generalizing s with
  | nil => exact .nil
  | cons move moves ih => exact .cons (linkStep_move config chip s move) (ih _)

/-- What a device has come to that took up some items, if it worked like one without a queue. -/
structure Refines (config : Config) (chip : NorFlash σ) (flash : σ) (done : List Service)
    (s : Interleaved σ) : Prop where
  snapshot : s.mode.snapshot = Snapshot.run config chip { flash } (calls done)
  acts : s.acts = sequence config chip { flash } done

theorem refines_start : Refines config chip flash [] (start flash) where
  snapshot := rfl
  acts := rfl

variable {done : List Service}

/-- The radio keeps apart from engine and flash. -/
theorem Refines.radio {m : UpdateMode σ} (h : Refines config chip flash done s)
    (hapart : s.mode.Apart m) : Refines config chip flash done { s with mode := m } where
  snapshot := by
    rw [← h.snapshot, UpdateMode.snapshot, UpdateMode.snapshot, hapart.engine, hapart.flash]
  acts := by
    rw [← h.acts, Interleaved.acts, Interleaved.acts, hapart.acts]

/-- A deed done was due. -/
theorem Refines.performs {deed : Deed} {deeds : List Deed}
    (h : Refines config chip flash done s) (hpending : s.pending = deed :: deeds) :
    Refines config chip flash done ⟨s.mode.perform deed, deeds⟩ where
  snapshot := by
    obtain ⟨hengine, hflash⟩ := UpdateMode.engine_perform (m := s.mode) deed
    rw [← h.snapshot, UpdateMode.snapshot, UpdateMode.snapshot, hengine, hflash]
  acts := by
    rw [← h.acts, Interleaved.acts, Interleaved.acts, UpdateMode.acts_perform, hpending]
    simp only [List.map_cons, List.append_assoc, List.singleton_append]

/-- An updater with nothing left to do takes the oldest item. -/
theorem Refines.takes {work : Work} {queue : BoundedQueue Work queueCapacity} {now : UInt64}
    (h : Refines config chip flash done s) (hpending : s.pending = []) :
    let begun := (UpdateMode.record { s.mode with queue } (.taken work)).undertake config chip now
      work
    Refines config chip flash (done ++ [⟨work, now⟩]) ⟨begun.2, begun.1⟩ := by
  intro begun
  have hlog : begun.2.log = (UpdateMode.record { s.mode with queue } (.taken work)).log :=
    (UpdateMode.kept_undertake now work).2.2.1
  have hacts : begun.2.acts = (UpdateMode.record { s.mode with queue } (.taken work)).acts :=
    congrArg (·.toList.filterMap Occurrence.act?) hlog
  have hdone : s.mode.acts = sequence config chip { flash } done := by
    rw [← h.acts, Interleaved.acts, hpending]
    exact (List.append_nil _).symm
  constructor
  · rw [UpdateMode.snapshot_undertake, calls_concat, Snapshot.run_append, ← h.snapshot]
    rfl
  · calc
      begun.2.acts ++ begun.1.map Deed.act
        = s.mode.acts ++ .takes work :: begun.1.map Deed.act := by
        rw [hacts, UpdateMode.acts_record]
        exact List.append_assoc _ _ _
      _ = sequence config chip { flash } done ++
          episode config chip s.mode.snapshot ⟨work, now⟩ := by
        rw [hdone, UpdateMode.act_undertake]
        rfl
      _ = sequence config chip { flash } (done ++ [⟨work, now⟩]) := by
        rw [sequence_concat, h.snapshot]

/-- Every move, whoever makes it, leaves the updater where the device without a queue would be. -/
theorem Refines.move (h : Refines config chip flash done s) (move : Move) :
    Refines config chip flash (done ++ s.served move) (s.move config chip move) := by
  cases move with
  | take happening =>
      rw [served, List.append_nil]
      exact h.radio (UpdateMode.apart_take happening)
  | reopen =>
      rw [served, List.append_nil]
      exact h.radio UpdateMode.apart_reopen
  | advance now =>
      rw [Interleaved.move]
      rcases advance_cases config chip s now with
        ⟨_, hserved, hsame⟩ | ⟨deed, deeds, _, hpending, hserved, hnext⟩ |
          ⟨work, queue, _, hpending, _, hserved, hnext⟩
      · rw [hserved, hsame, List.append_nil]
        exact h
      · rw [hserved, hnext, List.append_nil]
        exact h.performs hpending
      · rw [hserved, hnext]
        exact h.takes hpending

theorem Refines.run (h : Refines config chip flash done s) (moves : List Move) :
    Refines config chip flash (done ++ s.services config chip moves) (s.run config chip moves) := by
  induction moves generalizing s done with
  | nil => simpa [services, Interleaved.run] using h
  | cons move moves ih =>
      rw [services, ← List.append_assoc]
      exact ih (h.move move)

theorem refines_run (moves : List Move) :
    Refines config chip flash ((start flash).services config chip moves)
      ((start flash).run config chip moves) :=
  refines_start.run moves

/-- Of the items let in, some were taken up and the others are still on their way. -/
theorem admitted_run (moves : List Move) :
    let s := (start flash).run config chip moves
    admitted ((start flash).arrivals config chip moves) =
      ((start flash).services config chip moves).map Service.work ++
        (s.mode.queue.toList ++ s.mode.owed) :=
  (linkRun_run config chip (start flash) moves).items

/-- However radio and updater interleave, the moves alone decide what arrives, what is taken up and when
the end of a connection is announced. Of the items that arrived, those let in are the ones taken up so
far, in their order, and then those that still wait. Engine and flash are where the packets taken up
bring them one after another. What the updater did, and is about to do about its last item, is what a
device without a queue does about those items; what it tells on its own account, not on that of the
engine, are the replies to packets. -/
theorem queued_items_handled_in_order (config : Config) (chip : NorFlash σ) (flash : σ)
    (moves : List Move) :
    let s := (start flash).run config chip moves
    let arrivals := (start flash).arrivals config chip moves
    let services := (start flash).services config chip moves
    LinkRun {} moves arrivals services s.link ∧
      admitted arrivals = services.map Service.work ++ (s.mode.queue.toList ++ s.mode.owed) ∧
      s.mode.snapshot = Snapshot.run config chip { flash } (calls services) ∧
      s.acts = sequence config chip { flash } services ∧
      ∀ event c value, relayed event = .tells c value → c = .progress := by
  have h : Refines config chip flash _ _ := refines_run moves
  exact ⟨linkRun_run config chip (start flash) moves, admitted_run moves, h.snapshot, h.acts,
    fun _ _ _ => tells_relayed⟩

/-- One packet more than the queue has room for. -/
def burst : List Packet :=
  .control [0] :: ([1, 2, 3, 4, 5, 6, 7, 8] : List UInt8).map fun b => .data [b]

/-- A peer writes the burst and is lost before the updater has begun; then the updater takes one packet
up, and the radio announces that the peer is lost. -/
def hurried : List Move :=
  .take .connect ::
    (burst.map fun
      | .control value => .take (.write .control value)
      | .data value => .take (.write .data value)) ++
    [.take .disconnect, .reopen, .advance 0, .reopen, .advance 0]

def hurriedConfig : Config := { key := Vector.replicate 32 0 }

theorem hurried_computed :
    let s := (start blankFlash).run hurriedConfig Device.chip hurried
    let arrivals := (start blankFlash).arrivals hurriedConfig Device.chip hurried
    arrivals.map Incoming.work = burst.map Work.packet ++ [.disconnected] ∧
      arrivals.map Incoming.waiting = [0, 1, 2, 3, 4, 5, 6, 7, 8, 8] ∧
      ((start blankFlash).services hurriedConfig Device.chip hurried).map Service.work =
        [.packet (.control [0])] ∧
      s.mode.radio = .advertising ∧
      s.mode.queue.toList = (burst.tail.take 7).map Work.packet ++ [.disconnected] ∧
      s.acts = [.takes (.packet (.control [0])), .tells .control [1]] := by
  decide +kernel

/-- The last write finds the queue full and is lost. The end of the connection finds it full as well,
but is announced once there is room. -/
theorem queued_items_handled_in_order_hurried :
    let s := (start blankFlash).run hurriedConfig Device.chip hurried
    let arrivals := (start blankFlash).arrivals hurriedConfig Device.chip hurried
    arrivals.map Incoming.work = burst.map Work.packet ++ [.disconnected] ∧
      arrivals.map Incoming.waiting = [0, 1, 2, 3, 4, 5, 6, 7, 8, 8] ∧
      admitted arrivals = (burst.take 8).map Work.packet ++ [.disconnected] ∧
      s.mode.radio = .advertising ∧
      s.acts = [.takes (.packet (.control [0])), .tells .control [1]] := by
  intro s arrivals
  obtain ⟨hworks, hfound, hserved, hradio, hwaiting, hacts⟩ := hurried_computed
  obtain ⟨-, hadmitted, -⟩ :=
    queued_items_handled_in_order hurriedConfig Device.chip blankFlash hurried
  refine ⟨hworks, hfound, ?_, hradio, hacts⟩
  rw [hadmitted, hserved, hwaiting, UpdateMode.owed, hradio]
  rfl

end Interleaved

end FirmwareUpdate.Device
