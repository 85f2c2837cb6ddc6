import Quasiquote.Proofs.Session.Steps
import Quasiquote.Proofs.Typing.Congruence

namespace Quasiquote

/-!
# Errors — what has been reported stays reported

Typing goes on after an error, and the first error of a unit is the failure of its build.  So
it matters that errors are only added: what is typed later hides nothing.

* `TypeM.Collects` — computations that only add errors;
* `Typer.spares_require` — a build leaves the errors around it as they are;
* `Typer.collects_within` — typing only adds errors.
-/

namespace TypeM

/-- Whether a computation only adds errors. -/
def Collects {α : Type} (x : TypeM α) : Prop :=
  ∀ t a t', x t = .ok (a, t') → t.errors <+: t'.errors

/-- Whether a computation leaves the errors as they are. -/
def Spares {α : Type} (x : TypeM α) : Prop :=
  ∀ t a t', x t = .ok (a, t') → t'.errors = t.errors

theorem Spares.collects {α : Type} {x : TypeM α} (h : Spares x) : Collects x :=
  fun t a t' hx => (h t a t' hx).symm ▸ List.prefix_rfl

theorem Collects.bind {α β : Type} {x : TypeM α} {f : α → TypeM β} (hx : Collects x)
    (hf : ∀ a, Collects (f a)) : Collects (x >>= f) := by
  intro t b t'' h
  rw [bind_apply] at h
  cases hfirst : x t with
  | error s =>
    rw [hfirst] at h
    cases h
  | ok p =>
    rw [hfirst] at h
    exact (hx t p.1 p.2 hfirst).trans (hf p.1 p.2 b t'' h)

namespace Spares

/-- A computation that does not look at the errors. -/
theorem of_work {α : Type} {x : TypeM α}
    (h : ∀ t : Typing, ∃ a work, x t = .ok (a, { t with work })) : Spares x := by
  intro t a t' hx
  obtain ⟨a', work, hx'⟩ := h t
  rw [hx] at hx'
  cases hx'
  rfl

theorem attempt {α : Type} (body : SessionM α) : Spares (TypeM.attempt body) :=
  of_work fun t => ⟨_, _, attempt_apply body t⟩

theorem bind {α β : Type} {x : TypeM α} {f : α → TypeM β} (hx : Spares x)
    (hf : ∀ a, Spares (f a)) : Spares (x >>= f) := by
  intro t b t'' h
  rw [bind_apply] at h
  cases hfirst : x t with
  | error s =>
    rw [hfirst] at h
    cases h
  | ok p =>
    rw [hfirst] at h
    exact (hf p.1 p.2 b t'' h).trans (hx t p.1 p.2 hfirst)

/-- Steps that may fail are sequenced like others. -/
theorem run_bind {α β : Type} {x : ExceptT Diagnostic TypeM α}
    {f : α → ExceptT Diagnostic TypeM β} (hx : Spares x.run) (hf : ∀ a, Spares (f a).run) :
    Spares (x >>= f).run := by
  refine hx.bind fun r => ?_
  cases r with
  | ok a => exact hf a
  | error e => exact of_work fun t => ⟨_, _, rfl⟩

end Spares

/-- What only adds errors is a congruence, of which both sides are the same. -/
def collecting : Congruence where
  Rel x _ := Collects x
  pure a := (Spares.of_work fun t => ⟨a, t.work, rfl⟩).collects
  bind := Collects.bind
  get := fun t a t' h => by
    cases h
    exact List.prefix_rfl
  scratch f _ hmore := fun t a t' h => by
    cases h
    exact hmore t
  register spec owner span := (Spares.of_work fun t => ⟨_, _, rfl⟩).collects
  declare scope m := by
    unfold Typer.defineMethod
    cases scope.selfType.owner with
    | none => exact (Spares.of_work fun t => ⟨(), t.work, rfl⟩).collects
    | some owner => exact (Spares.of_work fun t => ⟨_, _, rfl⟩).collects
  importUnknown name := (Spares.of_work fun t => by
    obtain ⟨r, work, hrun, -⟩ := exists_importUnknown name t
    exact ⟨r, work, hrun⟩).collects
  openClass name superclass s := fun t a t' h => by
    obtain ⟨es, hrun⟩ := Typer.openClass_apply name superclass s t.work
    rw [hrun t rfl] at h
    cases h
    exact List.prefix_append _ _
  expandCall unit call := (Spares.of_work fun t => ⟨_, _, expandCall_apply unit call t⟩).collects
  record e h := (Spares.of_work fun t => ⟨_, _, rfl⟩).collects

end TypeM

namespace Typer

open TypeM

/-! ### Builds -/

/-- While a unit is typed, the errors around it are put aside. -/
theorem spares_inferUnit (typed : Scope → Node → TypeM (Node × TypeRef)) (scope : Scope) (n : Node) :
    Spares (inferUnit typed scope n).run := by
  intro t r t' h
  simp only [inferUnit, ExceptT.run, ExceptT.mk, TypeM.bind_apply, TypeM.get_apply,
    TypeM.modify_apply] at h
  cases htyped : typed scope n { t with locals := {}, errors := [] } with
  | error s =>
    rw [htyped] at h
    cases h
  | ok p =>
    rw [htyped] at h
    dsimp only at h
    cases hs : p.2.errors with
    | nil =>
      rw [hs] at h
      cases h
      rfl
    | cons e es =>
      rw [hs] at h
      cases h
      rfl

variable {typed : Scope → Node → TypeM (Node × TypeRef)}

theorem spares_step {α : Type} (body : SessionM α) : Spares (step body).run := Spares.attempt body

theorem spares_buildSteps (id : Nat) (d : MacroDefinition) : Spares (buildSteps typed id d).run := by
  have hlift {α : Type} {x : TypeM α} (h : ∀ t : Typing, ∃ a work, x t = .ok (a, { t with work })) :
      Spares (ExceptT.lift x : ExceptT Diagnostic TypeM α).run := by
    refine .of_work fun t => ?_
    obtain ⟨a, work, hx⟩ := h t
    refine ⟨.ok a, work, ?_⟩
    show (Except.ok <$> x) t = _
    rw [map_eq_pure_bind, TypeM.bind_apply, hx]
    rfl
  have hnote (state : BuildState) : Spares
      (ExceptT.lift (transition id state) : ExceptT Diagnostic TypeM Unit).run :=
    hlift fun t => ⟨_, _, rfl⟩
  refine Spares.run_bind ?_ fun (unit, files) => Spares.run_bind ?_ fun _ => spares_step _
  · -- the unit is put together, typed and compiled
    refine Spares.run_bind (spares_step _) fun (unit, n) => Spares.run_bind (hnote _) fun _ => ?_
    refine Spares.run_bind (hlift fun t => ⟨_, t.work, rfl⟩) fun s => ?_
    refine Spares.run_bind (spares_inferUnit typed _ n) fun n => ?_
    exact Spares.run_bind (spares_step _) fun files => .of_work fun t => ⟨_, t.work, rfl⟩
  · -- it is loaded and registered
    refine Spares.run_bind (hnote _) fun _ => Spares.run_bind (spares_step _) fun loaded => ?_
    exact Spares.run_bind (hnote _) fun _ => spares_step _

/-- A build leaves the errors around it as they are. -/
theorem spares_buildDefinition (id : Nat) (d : MacroDefinition) :
    Spares (buildDefinition typed id d) := by
  refine Spares.bind (.of_work fun t => ⟨_, _, rfl⟩) fun _ => ?_
  refine Spares.bind (spares_buildSteps id d) fun r => ?_
  cases r with
  | ok _ => exact .of_work fun t => ⟨_, _, rfl⟩
  | error e => exact .of_work fun t => ⟨_, _, conclude_error id d e t⟩

theorem spares_require (n id : Nat) : Spares (require n id) := by
  intro t r t' h
  rcases require_cases id t with ⟨r', hr⟩ | ⟨d, -, -, hcut, hbuild⟩
  · rw [hr] at h
    cases h
    rfl
  · cases n with
    | zero =>
      rw [hcut] at h
      cases h
    | succ n =>
      rw [hbuild] at h
      exact spares_buildDefinition id d t r t' h

/-- Typing only adds errors. -/
theorem collects_within (n left : Nat) (scope : Scope) (tree : Node) :
    Collects (within (require n) left scope tree) := by
  have hrel : collecting.Rel (within (require n) left scope tree)
      (within (require n) left scope tree) :=
    Congruence.rel_within (C := collecting) (fun id => (spares_require n id).collects) left scope tree
  exact hrel

end Typer

end Quasiquote
