import FirmwareUpdate.Proofs.Attempt

/-!
# Two attempts side by side

`Couples` compares an attempt made in one state with an attempt made in another one. Both end the same
way in states that are still related, or their states have come apart for good.
-/

namespace FirmwareUpdate

variable {s σ τ α β : Type}

namespace Attempt

/-- Both attempts succeed with the same value in states related by `post`, or are refused with the same
error in states related by `refused`. The one exception is that the states reached are `apart`. -/
def Couples (x x' : Attempt s α) (state state' : s) (post : α → s → s → Prop)
    (refused : UpdateError → s → s → Prop) (apart : s → s → Prop) : Prop :=
  x.Yields state
    (fun a t => x'.Yields state' (fun a' t' => (a' = a ∧ post a t t') ∨ apart t t')
      fun _ t' => apart t t')
    fun e t => x'.Yields state' (fun _ t' => apart t t')
      fun e' t' => (e' = e ∧ refused e t t') ∨ apart t t'

/-- States that are apart are still apart after the attempt, whichever of the two it is made in. -/
def KeepsApart (x : Attempt s α) (apart : s → s → Prop) : Prop :=
  ∀ t, x.Keeps (apart t) ∧ x.Keeps fun t' => apart t' t

variable {x x' : Attempt s α} {state state' : s} {post : α → s → s → Prop}
variable {refused : UpdateError → s → s → Prop} {apart : s → s → Prop}

theorem Couples.mono {post' : α → s → s → Prop} {refused' : UpdateError → s → s → Prop}
    {apart' : s → s → Prop} (h : x.Couples x' state state' post refused apart)
    (hpost : ∀ a t t', post a t t' → post' a t t')
    (hrefused : ∀ e t t', refused e t t' → refused' e t t')
    (hapart : ∀ t t', apart t t' → apart' t t') :
    x.Couples x' state state' post' refused' apart' := by
  apply Yields.mono h
  · intro a t ht
    apply ht.mono
    · exact fun a' t' => Or.imp (And.imp_right (hpost a t t')) (hapart t t')
    · exact fun _ t' => hapart t t'
  · intro e t ht
    apply ht.mono
    · exact fun _ t' => hapart t t'
    · exact fun e' t' => Or.imp (And.imp_right (hrefused e t t')) (hapart t t')

/-- An attempt made twice in one state comes to the same. -/
theorem couples_self (h : x.Yields state (fun a t => post a t t) fun e t => refused e t t) :
    x.Couples x state state post refused apart := by
  unfold Yields at h
  simp only [Couples, Yields]
  split at h
  · exact Or.inl ⟨rfl, h⟩
  · exact Or.inl ⟨rfl, h⟩

theorem couples_pure {a : α} (h : post a state state') :
    (pure a : Attempt s α).Couples (pure a) state state' post refused apart :=
  Or.inl ⟨rfl, h⟩

theorem couples_throw {e : UpdateError} (h : refused e state state') :
    (throw e : Attempt s α).Couples (throw e) state state' post refused apart :=
  Or.inl ⟨rfl, h⟩

theorem couples_of_apart (h : apart state state') (hx : x.KeepsApart apart)
    (hx' : x'.KeepsApart apart) : x.Couples x' state state' post refused apart := by
  apply ((hx state').2 state h).mono
  · intro _ t ht
    exact ((hx' t).1 state' ht).mono (fun _ _ => Or.inr) fun _ _ => id
  · intro _ t ht
    exact ((hx' t).1 state' ht).mono (fun _ _ => id) fun _ _ => Or.inr

/-- Attempts that are coupled may be continued by coupled ones. What happens to states that are apart
makes no difference. -/
theorem Couples.bind {next next' : α → Attempt s β} {M : α → s → s → Prop}
    {post : β → s → s → Prop} (h : x.Couples x' state state' M refused apart)
    (hnext : ∀ a t t', M a t t' → (next a).Couples (next' a) t t' post refused apart)
    (hleft : ∀ a, (next a).KeepsApart apart) (hright : ∀ a, (next' a).KeepsApart apart) :
    (x >>= next).Couples (x' >>= next') state state' post refused apart := by
  rw [Couples, yields_bind]
  apply Yields.mono h
  · intro a t ht
    simp only [yields_bind]
    unfold Yields at ht
    split at ht
    · next a' t' hrun =>
        have hcouples : (next a).Couples (next' a') t t' post refused apart := by
          rcases ht with ⟨rfl, hmid⟩ | hapart
          · exact hnext _ t t' hmid
          · exact couples_of_apart hapart (hleft a) (hright a')
        simpa only [Couples, Yields, hrun] using hcouples
    · next e' t' hrun =>
        have hleft' := (hleft a t').2 t ht
        apply hleft'.mono
        · intro _ _ hapart
          simpa only [Yields, hrun] using hapart
        · intro _ _ hapart
          simpa only [Yields, hrun] using Or.inr hapart
  · intro e t ht
    simp only [yields_bind]
    apply ht.mono
    · intro a' t' hapart
      exact ((hright a' t).1 t' hapart).mono (fun _ _ => id) fun _ _ => Or.inr
    · exact fun _ _ => id

theorem couples_ite {condition : Prop} [Decidable condition] {y y' : Attempt s α}
    (hpos : condition → x.Couples x' state state' post refused apart)
    (hneg : ¬condition → y.Couples y' state state' post refused apart) :
    (if condition then x else y).Couples (if condition then x' else y') state state' post refused
      apart := by
  split
  · next h => exact hpos h
  · next h => exact hneg h

theorem couples_refuseIf_bind {condition : Prop} [Decidable condition] {e : UpdateError}
    {next next' : Unit → Attempt s β} {post : β → s → s → Prop}
    (hpos : condition → refused e state state')
    (hneg : ¬condition → (next ()).Couples (next' ()) state state' post refused apart) :
    (refuseIf condition e >>= next).Couples (refuseIf condition e >>= next') state state' post refused
      apart := by
  by_cases hcondition : condition
  · simp only [refuseIf, hcondition, if_true]
    exact couples_throw (hpos hcondition)
  · simp only [refuseIf, hcondition, if_false]
    exact hneg hcondition

theorem couples_ofPacket_bind {a : α} {next next' : α → Attempt s β} {post : β → s → s → Prop} :
    (ofPacket (.ok a) >>= next).Couples (ofPacket (.ok a) >>= next') state state' post refused apart ↔
      (next a).Couples (next' a) state state' post refused apart := by
  simp only [Couples, yields_bind, yields_ofPacket_ok]

theorem couples_onBoard {attempt : Attempt (Board σ) α} {t t' : τ} {board board' : Board σ}
    {post : α → τ × Board σ → τ × Board σ → Prop}
    {refused : UpdateError → τ × Board σ → τ × Board σ → Prop}
    {apart : τ × Board σ → τ × Board σ → Prop} :
    (onBoard attempt).Couples (onBoard attempt) (t, board) (t', board') post refused apart ↔
      attempt.Couples attempt board board' (fun a b b' => post a (t, b) (t', b'))
        (fun e b b' => refused e (t, b) (t', b')) fun b b' => apart (t, b) (t', b') := by
  simp only [Couples, yields_onBoard]

/-! ### Attempts that keep states apart -/

theorem keepsApart_never : x.KeepsApart fun _ _ => False :=
  fun _ => ⟨fun _ h => h.elim, fun _ h => h.elim⟩

theorem keepsApart_pure {a : α} : (pure a : Attempt s α).KeepsApart apart :=
  fun _ => ⟨keeps_pure, keeps_pure⟩

theorem KeepsApart.bind {next : α → Attempt s β} (h : x.KeepsApart apart)
    (hnext : ∀ a, (next a).KeepsApart apart) : (x >>= next).KeepsApart apart :=
  fun t => ⟨(h t).1.bind fun a => (hnext a t).1, (h t).2.bind fun a => (hnext a t).2⟩

end Attempt

end FirmwareUpdate
