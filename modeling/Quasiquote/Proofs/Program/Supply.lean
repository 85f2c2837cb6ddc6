import Quasiquote.Program
import Quasiquote.Proofs.State

namespace Quasiquote

/-!
# Reading with a supply of values

Reading a phrase may ask the innermost template scope for values.  What is read is
then described by the node that comes out, spans aside, and by the ordinals that were
asked for, in order.

* `Scopes.after` — the scopes after some ordinals were asked for;
* `Reading.Supply` — which ordinals have values, and which scopes hand them out;
* `Reading.Supply.Yields` — a computation succeeds, asks for some ordinals and answers
  something;
* `Reading.Supply.empty`, `Reading.Supply.injected` — a text without placeholders, and
  the values of an injection.
-/

namespace Scopes

variable {α : Type}

/-- The scopes after some ordinals were asked for. -/
def after (is : List Nat) (st : Scopes α) : Scopes α :=
  is.foldl (fun st i => (resolved i st).2) st

@[simp] theorem after_nil (st : Scopes α) : after [] st = st := rfl

theorem after_append (is js : List Nat) (st : Scopes α) :
    after (is ++ js) st = after js (after is st) := List.foldl_append

end Scopes

namespace Reading

/-- Which ordinals have values, and the scopes that hand them out. -/
structure Supply (env : Reading) where
  value : Nat → Option Node
  served : Scopes Node → Prop
  available {i : Nat} {v : Node} (h : value i = some v) : env.resolves = true ∧ i < Word.count
  resolved {st : Scopes Node} {i : Nat} {v : Node} (hst : served st) (h : value i = some v) :
    (Scopes.resolved i st).1 = .ok v ∧ served (Scopes.resolved i st).2

namespace Supply

variable {env : Reading} (s : Supply env) {α β : Type}

/-- In every scope of the supply, a computation asks for the ordinals `is` and then
    succeeds with something that satisfies `P`. -/
def Yields (x : Reader α) (is : List Nat) (P : α → Prop) : Prop :=
  ∀ st, s.served st → s.served (Scopes.after is st) ∧
    ∃ a, x.run.run st = (.ok a, Scopes.after is st) ∧ P a

variable {s} {x : Reader α} {f : α → Reader β} {is js : List Nat} {P : α → Prop} {Q : β → Prop}

theorem Yields.pure {a : α} (h : P a) : s.Yields (pure a) [] P :=
  fun _ hst => ⟨hst, a, rfl, h⟩

theorem Yields.mono {Q : α → Prop} (h : s.Yields x is P) (hPQ : ∀ a, P a → Q a) :
    s.Yields x is Q := fun st hst => by
  obtain ⟨hserved, a, hrun, ha⟩ := h st hst
  exact ⟨hserved, a, hrun, hPQ a ha⟩

theorem Yields.bind (hx : s.Yields x is P) (hf : ∀ a, P a → s.Yields (f a) js Q) :
    s.Yields (x >>= f) (is ++ js) Q := fun st hst => by
  obtain ⟨hserved, a, hrun, ha⟩ := hx st hst
  obtain ⟨hserved', b, hrun', hb⟩ := hf a ha _ hserved
  rw [Scopes.after_append]
  refine ⟨hserved', b, ?_, hb⟩
  have hbind : (x >>= f).run.run st = (f a).run.run (Scopes.after is st) := by
    have := run_bind_apply x f st
    rwa [show x.run st = (.ok a, Scopes.after is st) from hrun] at this
  rw [hbind, hrun']

/-- A result that is only looked at. -/
theorem Yields.map {g : α → β} (hx : s.Yields x is P) (hg : ∀ a, P a → Q (g a)) :
    s.Yields (x >>= fun a => Pure.pure (g a)) is Q := by
  have hboth : s.Yields (x >>= fun a => Pure.pure (g a)) (is ++ []) Q :=
    hx.bind fun a ha => Yields.pure (hg a ha)
  rwa [List.append_nil] at hboth

/-- A result that is turned into an answer without failing. -/
theorem Yields.bind_pure (hx : s.Yields x is P)
    (hf : ∀ a, P a → ∃ b, f a = Pure.pure b ∧ Q b) : s.Yields (x >>= f) is Q := by
  have hboth : s.Yields (x >>= f) (is ++ []) Q := hx.bind fun a ha => by
    obtain ⟨b, hb, hQ⟩ := hf a ha
    rw [hb]
    exact Yields.pure hQ
  rwa [List.append_nil] at hboth

end Supply

/-- No text without placeholders asks for values. -/
def Supply.empty (env : Reading) : Supply env where
  value _ := none
  served st := st = []
  available h := by cases h
  resolved _ h := by cases h

/-- An injection hands out its values, of which there are no more than words. -/
def Supply.injected (env : Reading) (h : env.resolves = true) (values : List Node)
    (hcount : values.length ≤ Word.count) : Supply env where
  value i := values[i]?
  served st := ∃ used rest, st = .inject values used :: rest
  available {i v} hv := ⟨h, Nat.lt_of_lt_of_le (List.getElem?_eq_some_iff.1 hv).1 hcount⟩
  resolved {st i v} hst hv := by
    obtain ⟨used, rest, rfl⟩ := hst
    simp only [Scopes.resolved, hv]
    exact ⟨trivial, _, _, rfl⟩

end Reading

end Quasiquote
