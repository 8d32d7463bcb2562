import FirmwareUpdate.Device.Interleaving

/-!
# Between radio and updater

What radio and updater have in common is a queue of eight items. This module says, without the device,
what each move does to it: what a new peer, a write, a lost peer and the tries to announce it come to,
and when the updater takes an item up. Each move has one outcome.
-/

namespace FirmwareUpdate.Device

/-- An item that arrives, and the number of items that wait at that moment. -/
structure Incoming where
  work : Work
  waiting : Nat

/-- Whether an item is let in: a write unless eight items wait, the end of a connection always. -/
def Incoming.admitted (i : Incoming) : Bool :=
  match i.work with
  | .packet _ => i.waiting ≠ queueCapacity
  | .disconnected => true

/-- The items let in, in the order of their arrival. -/
def admitted (arrivals : List Incoming) : List Work :=
  (arrivals.filter Incoming.admitted).map Incoming.work

@[simp] theorem admitted_nil : admitted [] = [] := rfl

@[simp] theorem admitted_disconnected (waiting : Nat) :
    admitted [⟨.disconnected, waiting⟩] = [.disconnected] := rfl

@[simp] theorem admitted_packet (packet : Packet) (waiting : Nat) :
    admitted [⟨.packet packet, waiting⟩] =
      if waiting = queueCapacity then [] else [.packet packet] := by
  by_cases h : waiting = queueCapacity <;> simp [admitted, Incoming.admitted, h]

theorem admitted_append (earlier later : List Incoming) :
    admitted (earlier ++ later) = admitted earlier ++ admitted later := by
  simp only [admitted, List.filter_append, List.map_append]

/-- An item, and what the engine finds the clock to show while it is handled. -/
structure Service where
  work : Work
  now : UInt64

/-- What can be told of the device where radio and updater meet. -/
structure Link where
  stopped : Option Stop := none
  radio : Radio := .advertising
  /-- The items in the queue, the oldest first. -/
  waiting : List Work := []
  /-- What the updater has yet to do about the item it took last. -/
  due : List Deed := []

/-- A value written to a characteristic fits it, and stands for a packet. -/
inductive Carries : Characteristic → Bytes → Packet → Prop
  | control {value : Bytes} (h : value.length ≤ ControlPacket.size) :
    Carries .control value (.control value)
  | data {value : Bytes} (h : value.length ≤ Connection.attMtu) : Carries .data value (.data value)

/-- The radio does something about what happens. -/
def Radio.Heeds : Radio → UpdateMode.Happening → Prop
  | .advertising, .connect | .advertising, .advertisingFails => True
  | .connected _, .write _ _ | .connected _, .subscribe _ _ | .connected _, .disconnect => True
  | _, _ => False

open Interleaved (Move)

/-- A move, what it brings for the queue, what the updater takes up by it, and what comes of it. -/
inductive LinkStep : Link → Move → List Incoming → List Service → Link → Prop
  | idle {stop radio works due move} :
    LinkStep ⟨some stop, radio, works, due⟩ move [] [] ⟨some stop, radio, works, due⟩
  | connect {works due} :
    LinkStep ⟨none, .advertising, works, due⟩ (.take .connect) [] [] ⟨none, .connected {}, works, due⟩
  | panic {works due} :
    LinkStep ⟨none, .advertising, works, due⟩ (.take .advertisingFails) [] []
      ⟨some .panic, .advertising, works, due⟩
  | queue {subscriptions works due c value packet} (h : Carries c value packet)
    (room : works.length < queueCapacity) :
    LinkStep ⟨none, .connected subscriptions, works, due⟩ (.take (.write c value))
      [⟨.packet packet, works.length⟩] []
      ⟨none, .connected subscriptions, works ++ [.packet packet], due⟩
  | drop {subscriptions works due c value packet} (h : Carries c value packet)
    (full : works.length = queueCapacity) :
    LinkStep ⟨none, .connected subscriptions, works, due⟩ (.take (.write c value))
      [⟨.packet packet, works.length⟩] [] ⟨none, .connected subscriptions, works, due⟩
  | refuse {subscriptions works due c value} (h : ∀ packet, ¬Carries c value packet) :
    LinkStep ⟨none, .connected subscriptions, works, due⟩ (.take (.write c value)) [] []
      ⟨none, .connected subscriptions, works, due⟩
  | subscribe {subscriptions works due c on} :
    LinkStep ⟨none, .connected subscriptions, works, due⟩ (.take (.subscribe c on)) [] []
      ⟨none, .connected (subscriptions.set on c), works, due⟩
  | disconnect {subscriptions works due} (room : works.length < queueCapacity) :
    LinkStep ⟨none, .connected subscriptions, works, due⟩ (.take .disconnect)
      [⟨.disconnected, works.length⟩] [] ⟨none, .advertising, works ++ [.disconnected], due⟩
  | close {subscriptions works due} (full : works.length = queueCapacity) :
    LinkStep ⟨none, .connected subscriptions, works, due⟩ (.take .disconnect)
      [⟨.disconnected, works.length⟩] [] ⟨none, .closing, works, due⟩
  | announce {works due} (room : works.length < queueCapacity) :
    LinkStep ⟨none, .closing, works, due⟩ .reopen [] []
      ⟨none, .advertising, works ++ [.disconnected], due⟩
  | wait {works due} (full : works.length = queueCapacity) :
    LinkStep ⟨none, .closing, works, due⟩ .reopen [] [] ⟨none, .closing, works, due⟩
  | ignore {radio works due happening} (h : ¬radio.Heeds happening) :
    LinkStep ⟨none, radio, works, due⟩ (.take happening) [] [] ⟨none, radio, works, due⟩
  | busy {radio works due} (h : radio ≠ .closing) :
    LinkStep ⟨none, radio, works, due⟩ .reopen [] [] ⟨none, radio, works, due⟩
  | act {radio works deed deeds now} :
    LinkStep ⟨none, radio, works, deed :: deeds⟩ (.advance now) [] []
      ⟨if deed = .reset then some .reset else none, radio, works, deeds⟩
  | serve {radio work works now due} :
    LinkStep ⟨none, radio, work :: works, []⟩ (.advance now) [] [⟨work, now⟩]
      ⟨none, radio, works, due⟩
  | rest {radio now} :
    LinkStep ⟨none, radio, [], []⟩ (.advance now) [] [] ⟨none, radio, [], []⟩

/-- Moves made one after another, with what they bring and what is taken up, in their order. -/
inductive LinkRun : Link → List Move → List Incoming → List Service → Link → Prop
  | nil {l} : LinkRun l [] [] [] l
  | cons {l l' l'' move moves arrived arrivals served services}
    (step : LinkStep l move arrived served l') (rest : LinkRun l' moves arrivals services l'') :
    LinkRun l (move :: moves) (arrived ++ arrivals) (served ++ services) l''

/-- The items on their way to the updater: those that wait, and then the end of a connection that the
radio has not been able to announce. -/
def Link.items (l : Link) : List Work :=
  l.waiting ++
    match l.radio with
    | .closing => [.disconnected]
    | _ => []

/-- What is let in goes behind the items on their way, and what is taken up comes from their front. -/
theorem LinkStep.items {l l' : Link} {move : Move} {arrived : List Incoming} {served : List Service}
    (h : LinkStep l move arrived served l') :
    l.items ++ admitted arrived = served.map Service.work ++ l'.items := by
  cases h with
  | queue h room => simp [Link.items, Nat.ne_of_lt room]
  | drop h full => simp [Link.items, full]
  | _ => simp [Link.items]

theorem LinkRun.items {l l' : Link} {moves : List Move} {arrivals : List Incoming}
    {services : List Service} (h : LinkRun l moves arrivals services l') :
    l.items ++ admitted arrivals = services.map Service.work ++ l'.items := by
  induction h with
  | nil => simp
  | cons step _ ih =>
      rw [admitted_append, ← List.append_assoc, step.items, List.append_assoc, ih, List.map_append,
        List.append_assoc]

theorem Carries.unique {c : Characteristic} {value : Bytes} {packet packet' : Packet}
    (h : Carries c value packet) (h' : Carries c value packet') : packet = packet' := by
  cases h <;> cases h' <;> rfl

/-- Each move has one outcome, what the updater makes of an item apart. -/
theorem LinkStep.unique {l l₁ l₂ : Link} {move : Move} {arrived₁ arrived₂ : List Incoming}
    {served₁ served₂ : List Service} (h₁ : LinkStep l move arrived₁ served₁ l₁)
    (h₂ : LinkStep l move arrived₂ served₂ l₂) :
    arrived₁ = arrived₂ ∧ served₁ = served₂ ∧
      l₁.stopped = l₂.stopped ∧ l₁.radio = l₂.radio ∧ l₁.waiting = l₂.waiting := by
  cases h₁ <;> cases h₂ <;> try simp_all [Radio.Heeds]
  case queue.queue h _ _ h' => exact h.unique h'
  case drop.drop h _ _ h' => exact h.unique h'

end FirmwareUpdate.Device
