import FirmwareUpdate.Device.BoundedQueue
import FirmwareUpdate.Device.Gatt
import FirmwareUpdate.Engine.Reception

/-!
# Update mode

Two parties share the device. The radio takes what the peer does and puts its writes into a queue of
eight; the updater takes the queue's items one after another and hands packets to the engine. Each
can move whenever it has something to do, in any order; this file defines their moves.

Everything that happens is recorded in the order it happens.
-/

namespace FirmwareUpdate.Device

/-! ### State -/

def queueCapacity : Nat := 8

/-- An item for the updater. -/
inductive Work where
  | packet (packet : Packet)
  | disconnected
deriving DecidableEq, Repr

/-- The characteristics whose new values the peer wants to be told. -/
structure Subscriptions where
  control : Bool := false
  data : Bool := false
  progress : Bool := false
deriving DecidableEq, Repr

namespace Subscriptions

def has (s : Subscriptions) : Characteristic → Bool
  | .control => s.control
  | .data => s.data
  | .progress => s.progress

def set (s : Subscriptions) (on : Bool) : Characteristic → Subscriptions
  | .control => { s with control := on }
  | .data => { s with data := on }
  | .progress => { s with progress := on }

end Subscriptions

/-- What the radio does. -/
inductive Radio where
  | advertising
  | connected (subscriptions : Subscriptions)
  /-- Has lost its peer and waits for room in the queue to say so. -/
  | closing
deriving DecidableEq, Repr

/-- Why the device left update mode. -/
inductive Stop where
  | reset
  /-- It could not advertise. -/
  | panic
deriving DecidableEq, Repr

/-- Something that happened in update mode. -/
inductive Occurrence where
  | advertised
  /-- The radio refused a write. -/
  | refused
  | queued (work : Work)
  /-- A packet found the queue full and was lost. -/
  | dropped (packet : Packet)
  /-- The updater began with an item. -/
  | taken (work : Work)
  | flash (call : FlashCall) (failure : Option FlashError)
  /-- A value was to be told to the peer, and may have been. -/
  | notified (characteristic : Characteristic) (value : Bytes) (delivered : Bool)
  /-- Connection parameters were to be asked for, and were if there was a connection. -/
  | requested (parameters : Connection.Parameters) (connected : Bool)
  /-- The engine reported figures, which nobody sees. -/
  | reported (figures : Throughput)
  | stopped (stop : Stop)
deriving DecidableEq, Repr

/-- A device in update mode, with flash of type `σ`. -/
structure UpdateMode (σ : Type) where
  engine : Engine Layout.pageSize := {}
  flash : σ
  queue : BoundedQueue Work queueCapacity := .empty
  radio : Radio := .advertising
  /-- The clock, in milliseconds. -/
  clock : UInt64 := 0
  notificationsFail : Bool := false
  /-- Why the device left update mode, if it did. -/
  stopped : Option Stop := none
  /-- What happened, first to last. -/
  log : Array Occurrence := #[]

namespace UpdateMode

variable {σ : Type}

def record (m : UpdateMode σ) (o : Occurrence) : UpdateMode σ := { m with log := m.log.push o }

def stop (m : UpdateMode σ) (s : Stop) : UpdateMode σ :=
  { m with stopped := some s }.record (.stopped s)

/-! ### The updater -/

/-- Whether a value told now reaches the peer. -/
def delivers (m : UpdateMode σ) (c : Characteristic) : Bool :=
  match m.radio with
  | .connected subscriptions => subscriptions.has c && !m.notificationsFail
  | _ => false

def notify (m : UpdateMode σ) (c : Characteristic) (value : Bytes) : UpdateMode σ :=
  m.record (.notified c value (m.delivers c))

def isConnected (m : UpdateMode σ) : Bool :=
  match m.radio with
  | .connected _ => true
  | _ => false

/-- Passes on what the engine did outside itself. -/
def relay (m : UpdateMode σ) : Event → UpdateMode σ
  | .flash call failure => m.record (.flash call failure)
  | .progress notice => m.notify .progress notice.encode
  | .connection parameters => m.record (.requested parameters m.isConnected)
  | .report figures => m.record (.reported figures)

/-- The value that tells whether a packet was accepted. -/
def acknowledgement (accepted : Bool) : Bytes := if accepted then [0] else [1]

/-- Hands a packet to the engine, and says whether it was accepted. -/
def submit (config : Config) (chip : NorFlash σ) (m : UpdateMode σ) (packet : Packet) :
    Bool × UpdateMode σ :=
  match Engine.receive config chip m.clock packet (m.engine, { flash := m.flash }) with
  | .ok _ (engine, board) =>
    (true, board.events.foldl relay { m with engine, flash := board.flash })
  | .error _ (engine, board) =>
    (false, board.events.foldl relay { m with engine, flash := board.flash })

/-- Handles an item. Every control packet is answered, a data packet only if it was rejected; the
end of a connection resets the device if a reset was asked for. -/
def handle (config : Config) (chip : NorFlash σ) (m : UpdateMode σ) : Work → UpdateMode σ
  | .packet (.control bytes) =>
    let (accepted, m) := m.submit config chip (.control bytes)
    m.notify .control (acknowledgement accepted)
  | .packet (.data bytes) =>
    let (accepted, m) := m.submit config chip (.data bytes)
    if accepted then m else m.notify .data (acknowledgement false)
  | .disconnected => if m.engine.resetRequested then m.stop .reset else m

/-- The updater takes the oldest item and handles it. -/
def serve (config : Config) (chip : NorFlash σ) (m : UpdateMode σ) : UpdateMode σ :=
  match m.stopped, m.queue.pop? with
  | none, some (work, queue) => ({ m with queue }.record (.taken work)).handle config chip work
  | _, _ => m

/-! ### The radio -/

/-- Something that happens outside the device. -/
inductive Happening where
  | connect
  | advertisingFails
  | write (characteristic : Characteristic) (value : Bytes)
  | subscribe (characteristic : Characteristic) (on : Bool)
  | disconnect
  | clock (ms : UInt64)
  /-- Notifications fail from now on, or work again. -/
  | notificationsFail (fail : Bool)
  /-- Requests for connection parameters are refused from now on, or granted again. -/
  | parametersFail (fail : Bool)
deriving DecidableEq, Repr

/-- Puts a packet into the queue, or drops it. -/
def enqueue (m : UpdateMode σ) (packet : Packet) : UpdateMode σ :=
  match m.queue.push? (.packet packet) with
  | some queue => { m with queue }.record (.queued (.packet packet))
  | none => m.record (.dropped packet)

/-- A value that the peer wrote. -/
def written (m : UpdateMode σ) (c : Characteristic) (value : Bytes) : UpdateMode σ :=
  if c.maxLength < value.length then m.record .refused
  else
    match c with
    | .control => m.enqueue (.control value)
    | .data => m.enqueue (.data value)
    | .progress => m.record .refused

/-- The radio that has lost its peer tells the updater, if there is room, and advertises again. -/
def reopen (m : UpdateMode σ) : UpdateMode σ :=
  match m.stopped, m.radio, m.queue.push? .disconnected with
  | none, .closing, some queue =>
    ({ m with queue, radio := .advertising }.record (.queued .disconnected)).record .advertised
  | _, _, _ => m

/-- The radio and the clock take what happens. -/
def take (m : UpdateMode σ) (h : Happening) : UpdateMode σ :=
  match m.stopped, m.radio, h with
  | some _, _, _ => m
  | none, _, .clock ms => { m with clock := ms }
  | none, _, .notificationsFail fail => { m with notificationsFail := fail }
  | none, .advertising, .connect => { m with radio := .connected {} }
  | none, .advertising, .advertisingFails => m.stop .panic
  | none, .connected _, .write c value => m.written c value
  | none, .connected s, .subscribe c on => { m with radio := .connected (s.set on c) }
  | none, .connected _, .disconnect => { m with radio := .closing }.reopen
  | none, _, _ => m

/-! ### Moves -/

/-- A move of one of the two parties. -/
inductive Move where
  | take (h : Happening)
  /-- The radio tries again to tell the updater that its peer is gone. -/
  | reopen
  | serve
deriving DecidableEq, Repr

def move (config : Config) (chip : NorFlash σ) (m : UpdateMode σ) : Move → UpdateMode σ
  | .take h => m.take h
  | .reopen => m.reopen
  | .serve => m.serve config chip

end UpdateMode

end FirmwareUpdate.Device
