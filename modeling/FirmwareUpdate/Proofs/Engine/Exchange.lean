import FirmwareUpdate.Proofs.Attempt

/-!
# Exchanges and runs

An exchange is one packet with what stood before it, what the engine answered and did, and what
stands afterwards. A run takes packets one after another, each with the clock at its arrival.
-/

namespace FirmwareUpdate

variable {page : Nat} {σ : Type}

/-- Where a list that ends in `x` can be cut before one of its elements. -/
theorem cut_concat {α : Type} {xs earlier since : List α} {x y : α}
    (h : xs ++ [x] = earlier ++ y :: since) :
    (x = y ∧ since = []) ∨ ∃ since', since = since' ++ [x] ∧ xs = earlier ++ y :: since' := by
  rcases List.eq_nil_or_concat since with rfl | ⟨since, z, rfl⟩
  · obtain ⟨_, hlast⟩ := List.append_inj' h rfl
    exact Or.inl ⟨List.singleton_inj.mp hlast, rfl⟩
  · rw [List.concat_eq_append, ← List.cons_append, ← List.append_assoc] at h
    obtain ⟨hpast, hlast⟩ := List.append_inj' h rfl
    rw [← List.singleton_inj.mp hlast, List.concat_eq_append]
    exact Or.inr ⟨since, rfl, hpast⟩

/-- Where one list is cut before two of its elements, they are one, or one comes after the other. -/
theorem cut_twice {α : Type} {xs ys xs' ys' : List α} {x y : α}
    (h : xs ++ x :: ys = xs' ++ y :: ys') :
    (xs = xs' ∧ x = y ∧ ys = ys') ∨
      (∃ between, xs = xs' ++ y :: between ∧ ys' = between ++ x :: ys) ∨
      ∃ between, xs' = xs ++ x :: between ∧ ys = between ++ y :: ys' := by
  rcases List.append_eq_append_iff.mp h with ⟨between, rfl, hrest⟩ | ⟨between, rfl, hrest⟩ <;>
    cases between with
    | nil =>
        obtain ⟨rfl, rfl⟩ := List.cons.inj hrest
        exact Or.inl ⟨by simp, rfl, rfl⟩
    | cons z between =>
        obtain ⟨rfl, rfl⟩ := List.cons.inj hrest
        simp

/-- An engine between two packets, with its flash. -/
structure Snapshot (page : Nat) (σ : Type) where
  engine : Engine page := {}
  flash : σ

/-- A packet and what the clock showed when it arrived. -/
structure Arrival where
  now : UInt64
  packet : Packet
deriving DecidableEq, Repr

/-- What came of one packet. -/
structure Exchange (page : Nat) (σ : Type) where
  arrival : Arrival
  before : Snapshot page σ
  answer : Except UpdateError Unit
  /-- What the engine did outside itself, first to last. -/
  events : Array Event
  after : Snapshot page σ

/-- The command that a packet carries, if it is a control packet and well formed. -/
def Packet.command? : Packet → Option ControlPacket
  | .control bytes => (ControlPacket.decode bytes).toOption
  | .data _ => none

namespace Snapshot

/-- Takes one packet. -/
def exchange (config : Config) (chip : NorFlash σ) (s : Snapshot page σ) (a : Arrival) :
    Exchange page σ :=
  match (Engine.receive config chip a.now a.packet).run (s.engine, { flash := s.flash }) with
  | .ok _ (engine, board) => ⟨a, s, .ok (), board.events, ⟨engine, board.flash⟩⟩
  | .error e (engine, board) => ⟨a, s, .error e, board.events, ⟨engine, board.flash⟩⟩

/-- Takes packets one after another, and lists the exchanges in their order. -/
def exchanges (config : Config) (chip : NorFlash σ) :
    Snapshot page σ → List Arrival → List (Exchange page σ)
  | _, [] => []
  | s, a :: as => s.exchange config chip a :: exchanges config chip (s.exchange config chip a).after as

/-- What stands once packets have been taken one after another. -/
def run (config : Config) (chip : NorFlash σ) : Snapshot page σ → List Arrival → Snapshot page σ
  | s, [] => s
  | s, a :: as => run config chip (s.exchange config chip a).after as

variable {config : Config} {chip : NorFlash σ} {s : Snapshot page σ} {a : Arrival}
variable {as bs : List Arrival}

@[simp] theorem exchange_arrival : (s.exchange config chip a).arrival = a := by
  unfold exchange
  split <;> rfl

@[simp] theorem exchange_before : (s.exchange config chip a).before = s := by
  unfold exchange
  split <;> rfl

/-- What holds of the exchange, whatever the step yields. -/
theorem exchange_holds {R : Exchange page σ → Prop}
    (h : (Engine.receive config chip a.now a.packet).Yields (s.engine, { flash := s.flash })
      (fun _ st => R ⟨a, s, .ok (), st.2.events, ⟨st.1, st.2.flash⟩⟩)
      (fun err st => R ⟨a, s, .error err, st.2.events, ⟨st.1, st.2.flash⟩⟩)) :
    R (s.exchange config chip a) := by
  unfold Attempt.Yields at h
  unfold exchange
  split at h <;> simp_all

/-- What an engine's step yields, read off the exchange. -/
theorem exchange_of_yields {Q : Except UpdateError Unit → Engine page → Board σ → Prop}
    (h : (Engine.receive config chip a.now a.packet).Yields (s.engine, { flash := s.flash })
      (fun _ st => Q (.ok ()) st.1 st.2) (fun e st => Q (.error e) st.1 st.2)) :
    Q (s.exchange config chip a).answer (s.exchange config chip a).after.engine
      { flash := (s.exchange config chip a).after.flash
        events := (s.exchange config chip a).events } :=
  exchange_holds
    (R := fun x => Q x.answer x.after.engine { flash := x.after.flash, events := x.events }) h

/-- What comes of a packet that cannot be refused. -/
theorem exchange_of_taken {Q : Engine page × Board σ → Prop}
    (h : (Engine.receive config chip a.now a.packet).Yields (s.engine, { flash := s.flash })
      (fun _ st => Q st) (fun _ _ => False)) :
    (s.exchange config chip a).answer = .ok () ∧
      Q ((s.exchange config chip a).after.engine,
        { flash := (s.exchange config chip a).after.flash
          events := (s.exchange config chip a).events }) :=
  exchange_of_yields (Q := fun answer e board => answer = .ok () ∧ Q (e, board))
    (h.mono (fun _ _ hst => ⟨rfl, hst⟩) fun _ _ hfalse => hfalse.elim)

@[simp] theorem length_exchanges : (s.exchanges config chip as).length = as.length := by
  induction as generalizing s with
  | nil => rfl
  | cons a as ih => simp only [exchanges, List.length_cons, ih]

theorem exchanges_append :
    s.exchanges config chip (as ++ bs) =
      s.exchanges config chip as ++ (s.run config chip as).exchanges config chip bs := by
  induction as generalizing s with
  | nil => rfl
  | cons a as ih => simp only [List.cons_append, exchanges, run, ih]

theorem run_append :
    s.run config chip (as ++ bs) = (s.run config chip as).run config chip bs := by
  induction as generalizing s with
  | nil => rfl
  | cons a as ih => simp only [List.cons_append, run, ih]

theorem run_concat :
    s.run config chip (as ++ [a]) = ((s.run config chip as).exchange config chip a).after :=
  run_append

theorem exchanges_concat :
    s.exchanges config chip (as ++ [a]) =
      s.exchanges config chip as ++ [(s.run config chip as).exchange config chip a] :=
  exchanges_append

/-- A property that every packet of a run preserves holds after the run. -/
theorem run_induction {P : Snapshot page σ → Prop} (h : P s) {as : List Arrival}
    (hstep : ∀ s, ∀ a ∈ as, P s → P (s.exchange config chip a).after) :
    P (s.run config chip as) := by
  induction as generalizing s with
  | nil => exact h
  | cons a as ih =>
      exact ih (hstep s a List.mem_cons_self h) fun s b hb => hstep s b (List.mem_cons_of_mem a hb)

/-- Every exchange of a run begins with what every packet of the run preserves. -/
theorem exchanges_induction {P : Snapshot page σ → Prop} {R : Exchange page σ → Prop} (h : P s)
    {as : List Arrival}
    (hstep : ∀ s, ∀ a ∈ as, P s → R (s.exchange config chip a) ∧ P (s.exchange config chip a).after) :
    ∀ x ∈ s.exchanges config chip as, R x := by
  induction as generalizing s with
  | nil => simp [exchanges]
  | cons a as ih =>
      obtain ⟨hfirst, hnext⟩ := hstep s a List.mem_cons_self h
      rw [exchanges, List.forall_mem_cons]
      exact ⟨hfirst, ih hnext fun s b hb => hstep s b (List.mem_cons_of_mem a hb)⟩

end Snapshot

namespace Exchange

/-- The packet carries the command, whether or not it was accepted. -/
def Asks (x : Exchange page σ) (command : Command) : Prop :=
  ∃ p, x.arrival.packet.command? = some p ∧ p.command = command

/-- The packet was accepted as the command. -/
def Accepts (x : Exchange page σ) (command : Command) : Prop :=
  x.answer = .ok () ∧ x.Asks command

/-- The packet was accepted as the `data` command for a range. -/
def Begins (x : Exchange page σ) (base : UInt32) (length : UInt16) : Prop :=
  x.answer = .ok () ∧ x.arrival.packet.command? = some { command := .data, length, address := base }

theorem toBool_answer {x : Exchange page σ} : x.answer.toBool = true ↔ x.answer = .ok () := by
  cases x.answer <;> simp [Except.toBool]

instance (x : Exchange page σ) (command : Command) : Decidable (x.Asks command) :=
  inferInstanceAs (Decidable (∃ p ∈ x.arrival.packet.command?, p.command = command))

instance (x : Exchange page σ) (command : Command) : Decidable (x.Accepts command) :=
  decidable_of_iff (x.answer.toBool = true ∧ x.Asks command)
    (and_congr_left fun _ => toBool_answer)

instance (x : Exchange page σ) (base : UInt32) (length : UInt16) : Decidable (x.Begins base length) :=
  decidable_of_iff (x.answer.toBool = true ∧ x.arrival.packet.command? = _)
    (and_congr_left fun _ => toBool_answer)

/-- The packet was taken for payload of a transfer, whether or not it was accepted. -/
def CarriesPayload (x : Exchange page σ) : Prop :=
  (∃ bytes, x.arrival.packet = .data bytes) ∧
    ∃ base length, x.before.engine.session.activity = .transfer base length

/-- The packet was accepted as the digest awaited for a range. -/
def Matches (x : Exchange page σ) (address size : UInt32) (digest : Digest) : Prop :=
  x.answer = .ok () ∧ x.before.engine.session.activity = .digest address size ∧
    x.arrival.packet = .data digest.toList

/-- A unit was erased, or an attempt at it failed. -/
def Erases (x : Exchange page σ) : Prop :=
  ∃ start stop failure, .flash (.erase start stop) failure ∈ x.events

/-- Bytes were programmed, or an attempt at it failed. -/
def Writes (x : Exchange page σ) : Prop :=
  ∃ address bytes failure, .flash (.write address bytes) failure ∈ x.events

end Exchange

end FirmwareUpdate
