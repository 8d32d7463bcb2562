import FirmwareUpdate.Engine.Reception

/-!
# What an attempt comes to

`Yields` states the outcome of an attempt made in a given state, once for success and once for
refusal. One rule for each way to build an attempt takes a statement about a whole step apart into
statements about the calls it makes; `Keeps` is the case of one property that survives both ends.
-/

namespace FirmwareUpdate

variable {s σ τ α β : Type}

namespace Attempt

/-- The attempt made in `state` ends in `post` if it succeeds and in `refused` if it does not. -/
def Yields (attempt : Attempt s α) (state : s) (post : α → s → Prop)
    (refused : UpdateError → s → Prop) : Prop :=
  match attempt.run state with
  | .ok a state => post a state
  | .error e state => refused e state

/-- The attempt preserves a property of states, whether it succeeds or not. -/
def Keeps (attempt : Attempt s α) (P : s → Prop) : Prop :=
  ∀ state, P state → attempt.Yields state (fun _ => P) (fun _ => P)

variable {attempt : Attempt s α} {state : s} {post : α → s → Prop}
variable {refused : UpdateError → s → Prop} {P : s → Prop}

theorem Yields.mono {post' : α → s → Prop} {refused' : UpdateError → s → Prop}
    (h : attempt.Yields state post refused) (hpost : ∀ a st, post a st → post' a st)
    (hrefused : ∀ e st, refused e st → refused' e st) :
    attempt.Yields state post' refused' := by
  unfold Yields at h ⊢
  split at h
  · exact hpost _ _ h
  · exact hrefused _ _ h

theorem yields_of_forall (hpost : ∀ a st, post a st) (hrefused : ∀ e st, refused e st) :
    attempt.Yields state post refused := by
  unfold Yields
  split
  · exact hpost _ _
  · exact hrefused _ _

theorem Yields.and {post' : α → s → Prop} {refused' : UpdateError → s → Prop}
    (h : attempt.Yields state post refused) (h' : attempt.Yields state post' refused') :
    attempt.Yields state (fun a st => post a st ∧ post' a st)
      (fun e st => refused e st ∧ refused' e st) := by
  unfold Yields at h h' ⊢
  split at h <;> simp_all

@[simp] theorem yields_pure {a : α} :
    (pure a : Attempt s α).Yields state post refused ↔ post a state := Iff.rfl

@[simp] theorem yields_throw {e : UpdateError} :
    (throw e : Attempt s α).Yields state post refused ↔ refused e state := Iff.rfl

@[simp] theorem yields_bind {next : α → Attempt s β} {post : β → s → Prop} :
    (attempt >>= next).Yields state post refused ↔
      attempt.Yields state (fun a st => (next a).Yields st post refused) refused := by
  simp only [Yields, EStateM.run, bind, EStateM.bind]
  cases attempt state <;> rfl

@[simp] theorem yields_ite {condition : Prop} [Decidable condition] {other : Attempt s α} :
    (if condition then attempt else other).Yields state post refused ↔
      (condition → attempt.Yields state post refused) ∧
        (¬condition → other.Yields state post refused) := by
  split <;> simp_all

@[simp] theorem yields_refuseIf {condition : Prop} [Decidable condition] {e : UpdateError}
    {post : Unit → s → Prop} :
    (refuseIf condition e : Attempt s Unit).Yields state post refused ↔
      (condition → refused e state) ∧ (¬condition → post () state) := by
  simp only [refuseIf, yields_ite, yields_throw, yields_pure]

@[simp] theorem yields_ofPacket_ok {a : α} :
    (ofPacket (.ok a) : Attempt s α).Yields state post refused ↔ post a state := Iff.rfl

@[simp] theorem yields_ofPacket_error {e : PacketError} :
    (ofPacket (.error e) : Attempt s α).Yields state post refused ↔
      refused (.malformed e) state := Iff.rfl

@[simp] theorem yields_onBoard {attempt : Attempt (Board σ) α} {t : τ} {board : Board σ}
    {post : α → τ × Board σ → Prop} {refused : UpdateError → τ × Board σ → Prop} :
    (onBoard attempt).Yields (t, board) post refused ↔
      attempt.Yields board (fun a board => post a (t, board))
        (fun e board => refused e (t, board)) := by
  simp only [Yields, EStateM.run, onBoard]
  cases attempt board <;> rfl

theorem keeps_pure {a : α} : (pure a : Attempt s α).Keeps P := fun _ h => h

theorem keeps_throw {e : UpdateError} : (throw e : Attempt s α).Keeps P := fun _ h => h

theorem Keeps.bind {next : α → Attempt s β} (h : attempt.Keeps P)
    (hnext : ∀ a, (next a).Keeps P) : (attempt >>= next).Keeps P := by
  intro st hst
  exact yields_bind.mpr ((h st hst).mono (fun a st ha => hnext a st ha) fun _ _ he => he)

end Attempt

/-! ### Steps of the engine -/

namespace Engine

open Attempt

variable {page : Nat} {e : Engine page} {board : Board σ}
variable {refused : UpdateError → Engine page × Board σ → Prop}

@[simp] theorem yields_current {post : Engine page → Engine page × Board σ → Prop} :
    (current : Step page σ (Engine page)).Yields (e, board) post refused ↔
      post e (e, board) := Iff.rfl

@[simp] theorem yields_assemble {attempt : Attempt (Assembly page × Board σ) α}
    {post : α → Engine page × Board σ → Prop} :
    (assemble attempt).Yields (e, board) post refused ↔
      attempt.Yields (e.assembly, board)
        (fun a st => post a ({ e with assembly := st.1 }, st.2))
        (fun err st => refused err ({ e with assembly := st.1 }, st.2)) := by
  simp only [Yields, EStateM.run, assemble]
  cases attempt (e.assembly, board) <;> rfl

variable {post : Unit → Engine page × Board σ → Prop}

@[simp] theorem yields_update {f : Engine page → Engine page} :
    (update f : Step page σ Unit).Yields (e, board) post refused ↔
      post () (f e, board) := Iff.rfl

@[simp] theorem yields_updateSession {f : Session → Session} :
    (updateSession f : Step page σ Unit).Yields (e, board) post refused ↔
      post () ({ e with session := f e.session }, board) := Iff.rfl

@[simp] theorem yields_await {activity : Activity} :
    (await activity : Step page σ Unit).Yields (e, board) post refused ↔
      post () ({ e with session := { e.session with activity } }, board) := Iff.rfl

@[simp] theorem yields_emit {event : Event} :
    (emit event : Step page σ Unit).Yields (e, board) post refused ↔
      post () (e, { board with events := board.events.push event }) := Iff.rfl

@[simp] theorem yields_report {now : UInt64} {expected : UInt32} :
    (report now expected : Step page σ Unit).Yields (e, board) post refused ↔
      post () (e, { board with
        events := board.events.push (.report (e.session.throughput now expected)) }) := Iff.rfl

@[simp] theorem yields_requireIdle :
    (requireIdle : Step page σ Unit).Yields (e, board) post refused ↔
      (e.session.activity ≠ .idle → refused .busy (e, board)) ∧
        (e.session.activity = .idle → post () (e, board)) := by
  simp only [requireIdle, yields_bind, yields_current, yields_refuseIf, ne_eq,
    Decidable.not_not]

end Engine

end FirmwareUpdate
