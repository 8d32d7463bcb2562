import FirmwareUpdate.Proofs.Engine.InStep

/-!
# Engines chained differently

Two engines that differ in nothing but their chaining vectors cannot be told apart by packets other than
payload of a transfer, and a chaining vector that is accepted makes them the same.
-/

namespace FirmwareUpdate

variable {page : Nat} {σ : Type} {config : Config} {chip : NorFlash σ} {now : UInt64}

/-- The units are the same, the one chained after `v` and the other one after `w`. -/
structure Assembly.Chained (v w : Block) (t t' : Assembly page × Board σ) : Prop where
  vector : t.1.vector = v
  vector' : t'.1.vector = w
  buffer : t'.1.buffer = t.1.buffer
  pending : t'.1.pending = t.1.pending
  board : t'.2 = t.2

/-- Units chained after the same vector are the same. -/
theorem Assembly.Chained.eq {v : Block} {t t' : Assembly page × Board σ} (h : Chained v v t t') :
    t = t' := by
  obtain ⟨⟨buffer, pending, vector⟩, board⟩ := t
  obtain ⟨⟨buffer', pending', vector'⟩, board'⟩ := t'
  obtain ⟨rfl, rfl, rfl, rfl, rfl⟩ := h
  rfl

namespace Assembly

open Attempt

variable {key : Aes256.Key} {a a' : Assembly page} {board board' : Board σ} {v w : Block}
variable {post : Unit → Assembly page × Board σ → Assembly page × Board σ → Prop}
variable {refused : UpdateError → Assembly page × Board σ → Assembly page × Board σ → Prop}
variable {apart : Assembly page × Board σ → Assembly page × Board σ → Prop}

/-- A unit is taken up in the same way whatever it will be chained after. -/
theorem load_couples {base : UInt32}
    (h : (Board.read chip base page).Yields board
      (fun bytes b => post () ({ a with buffer := some { base, bytes } }, b)
        ({ a' with buffer := some { base, bytes } }, b))
      fun err b => refused err (a.release, b) (a'.release, b)) :
    (load chip base).Couples (load chip base) (a, board) (a', board) post refused apart := by
  simp only [Couples, yields_load]
  unfold Yields at h ⊢
  split at h
  · left
    exact ⟨trivial, h⟩
  · left
    exact ⟨rfl, h⟩

/-- Units with the same base are taken up alike if leaving them and reading the next one is alike. -/
theorem seek_couples {address : UInt32} (hbase : a'.base? = a.base?)
    (hthere : post () (a, board) (a', board'))
    (hmoved : (commit key chip >>= fun _ => load chip (Address.unitBase page address)).Couples
      (commit key chip >>= fun _ => load chip (Address.unitBase page address)) (a, board) (a', board')
        post refused apart) :
    (seek key chip address).Couples (seek key chip address) (a, board) (a', board') post refused
      apart := by
  change (if a.base? = some (Address.unitBase page address) then pure () else
      commit key chip >>= fun _ => load chip (Address.unitBase page address)).Couples
    (if a'.base? = some (Address.unitBase page address) then pure () else
      commit key chip >>= fun _ => load chip (Address.unitBase page address)) _ _ _ _ _
  rw [hbase]
  exact couples_ite (fun _ => couples_pure hthere) fun _ => hmoved

theorem seek_couples_nothing (h : a.NothingPending) (hchained : Chained v w (a, board) (a', board'))
    {address : UInt32} :
    (seek key chip address).Couples (seek key chip address) (a, board) (a', board')
      (fun _ => Chained v w) (fun _ => Chained v w) fun _ _ => False := by
  obtain ⟨hvector, hvector', hbuffer, hpending, rfl⟩ := hchained
  have h' : a'.NothingPending := hpending.trans h
  have hchained : Chained v w (a, board') (a', board') := ⟨hvector, hvector', hbuffer, hpending, rfl⟩
  refine seek_couples (congrArg (Option.map _) hbuffer) hchained ?_
  refine Couples.bind (M := fun _ t t' => t = (a, board') ∧ t' = (a', board')) ?_ ?_
    (fun _ => keepsApart_never) fun _ => keepsApart_never
  · rw [Couples, yields_commit_nothingPending h, yields_commit_nothingPending h']
    exact Or.inl ⟨rfl, rfl, rfl⟩
  · rintro _ _ _ ⟨rfl, rfl⟩
    exact load_couples (yields_of_forall (fun _ _ => ⟨hvector, hvector', rfl, hpending, rfl⟩)
      fun _ _ => ⟨hvector, hvector', rfl, hpending, rfl⟩)

end Assembly

namespace Engine

open Attempt

variable {v w : Block}

/-- Engines that are the same are chained after the same vector. -/
theorem InStep.chained {st st' : Engine page × Board σ} (h : InStep Eq st st') :
    InStep (Assembly.Chained st.1.assembly.vector st.1.assembly.vector) st st' := by
  obtain ⟨hassembly, hboard⟩ := Prod.mk.inj h.alike
  refine ⟨h.session, h.halted, rfl, ?_, ?_, ?_, hboard.symm⟩
  · rw [hassembly]
  · rw [hassembly]
  · rw [hassembly]

/-- Nothing but payload depends on the vector, and a vector that is accepted leaves no difference. -/
theorem parallel_chained :
    Parallel config chip (Assembly.Chained v w : Assembly page × Board σ → _ → Prop) Eq where
  discard h := ⟨h.vector, h.vector', rfl, rfl, h.board⟩
  emit := by
    rintro ⟨a, board⟩ ⟨a', board'⟩ ⟨hvector, hvector', hbuffer, hpending, rfl⟩ event _
    exact ⟨hvector, hvector', hbuffer, hpending, rfl⟩
  seed h vector :=
    Assembly.Chained.eq (v := vector) ⟨rfl, rfl, h.buffer, h.pending, h.board⟩
  seek h hnothing _ := Assembly.seek_couples_nothing hnothing h
  digest := by
    rintro a a' board board' ⟨hvector, hvector', hbuffer, hpending, rfl⟩ address size
    exact couples_self (yields_of_forall (fun _ _ => ⟨hvector, hvector', hbuffer, hpending, rfl⟩)
      fun _ _ => ⟨hvector, hvector', hbuffer, hpending, rfl⟩)
  confirm := by
    rintro a a' board board' ⟨hvector, hvector', hbuffer, hpending, rfl⟩
    exact couples_self (yields_of_forall (fun _ _ => ⟨hvector, hvector', rfl, rfl, rfl⟩)
      fun _ _ => ⟨hvector, hvector', rfl, rfl, rfl⟩)

end Engine

end FirmwareUpdate
