namespace Quasiquote

/-!
# Computations with a state — running and keeping

Sessions, template scopes and files are changed by computations that may fail.

* `run_bind_apply`, `exists_of_run_bind` — a computation goes on, or ends with its failure;
* `Keeps` — a relation between the states that a computation reaches and those that it
  starts from.
-/

/-- A step that may fail goes on with its result, or ends with its failure. -/
theorem run_bind_apply {ε σ α β : Type} (x : ExceptT ε (StateM σ) α)
    (f : α → ExceptT ε (StateM σ) β) (s : σ) :
    (x >>= f).run s = match x.run s with
      | (.ok a, s) => (f a).run s
      | (.error e, s) => (.error e, s) := by
  show (match x.run s with
    | (r, s) => (ExceptT.bindCont f r) s) = _
  cases x.run s with
  | mk r s => cases r <;> rfl

/-- A computation that succeeds has gone on with the result of its first step. -/
theorem exists_of_run_bind {ε σ α β : Type} {x : ExceptT ε (StateM σ) α}
    {f : α → ExceptT ε (StateM σ) β} {s s' : σ} {b : β} (h : (x >>= f).run s = (.ok b, s')) :
    ∃ a t, x.run s = (.ok a, t) ∧ (f a).run t = (.ok b, s') := by
  rw [run_bind_apply] at h
  revert h
  rcases x.run s with ⟨e | a, t⟩
  · exact fun h => by cases h
  · exact fun h => ⟨a, t, rfl, h⟩

@[simp] theorem run_get_apply {ε σ : Type} (s : σ) :
    (MonadState.get : ExceptT ε (StateM σ) σ).run s = (.ok s, s) := rfl

@[simp] theorem run_pure_apply {ε σ α : Type} (a : α) (s : σ) :
    (pure a : ExceptT ε (StateM σ) α).run s = (.ok a, s) := rfl

@[simp] theorem run_throw_apply {ε σ α : Type} (e : ε) (s : σ) :
    (throw e : ExceptT ε (StateM σ) α).run s = (.error e, s) := rfl

/-- Whether every state that a step reaches is related to the one it starts from. -/
def Keeps {ε σ α : Type} (R : σ → σ → Prop) (x : ExceptT ε (StateM σ) α) : Prop :=
  ∀ s, R s (x.run s).2

namespace Keeps

variable {ε σ α β : Type} {R : σ → σ → Prop}

theorem pure (hrefl : ∀ s, R s s) (a : α) : Keeps R (pure a : ExceptT ε (StateM σ) α) :=
  fun s => hrefl s

theorem bind (htrans : ∀ a b c, R a b → R b c → R a c) {x : ExceptT ε (StateM σ) α}
    {f : α → ExceptT ε (StateM σ) β} (hx : Keeps R x) (hf : ∀ a, Keeps R (f a)) :
    Keeps R (x >>= f) := by
  intro s
  have h := hx s
  rw [run_bind_apply]
  revert h
  rcases x.run s with ⟨e | a, s'⟩
  · exact id
  · exact fun h => htrans _ _ _ h (hf a s')

theorem get (hrefl : ∀ s, R s s) : Keeps R (MonadState.get : ExceptT ε (StateM σ) σ) :=
  fun s => hrefl s

/-- A step that answers something and changes nothing. -/
theorem of_result (hrefl : ∀ s, R s s) (r : Except ε α) :
    Keeps R (ExceptT.mk (Pure.pure r) : ExceptT ε (StateM σ) α) :=
  fun s => hrefl s

end Keeps

end Quasiquote
