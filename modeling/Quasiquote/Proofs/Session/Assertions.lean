import Quasiquote.Proofs.Session.Runs

namespace Quasiquote

/-!
# Assertions — what holds between the steps of a build

A build is a sequence of steps, each of which may fail.  An assertion about the session
is carried from step to step, and another one holds wherever the build fails.

* `Typer.Preserved`, `Typer.preserves_within` — what every step of typing preserves, typing
  preserves;
* `Typer.Holds` — from one assertion a computation leads to others;
* `Typer.Holds.bind`, `Typer.Holds.step`, `Typer.Holds.note` — the rules;
* `Typer.IsClass` — the trees of units, which stay classes of one name;
* `Typer.Holds.prepare` — the rule of what precedes loading, whose result is the file
  of a single unit.
-/

namespace Typer

open TypeM (last)

/-! ### What typing preserves -/

/-- Whether every step of typing preserves an assertion. -/
structure Preserved (I : Work → Prop) : Prop where
  meet {k : Work} (h : I k) (spec : MacroSpec) (owner : String) (span : Span) :
    I { k with session := { k.session with definitions :=
      k.session.definitions ++ [{ spec, owner, span, source := k.session.source }] } }
  declare {k : Work} (h : I k) (owner : String) (m : Method) :
    I { k with session := { k.session with types := k.session.types.modify owner (·.define m) } }
  importType {k : Work} (h : I k) (name : String)
      (hnew : k.session.types.contains name = false) : I ((SessionM.importType name).run k).2
  openType {k : Work} (h : I k) (name : String) (superclass : Option String)
      (persistent : Bool) :
    I { k with session := { k.session with
      types := k.session.types.openType name superclass persistent } }
  expand {k : Work} (h : I k) (unit : LoadedUnit) (call : Node) :
    I ⟨{ k.session with scopes := (k.expanded unit call).scopes },
      { k.world with printed := k.world.printed ++ (k.expanded unit call).output }⟩
  record {k : Work} (h : I k) (e : ExpansionStep) (he : e.depth < expansionLimit) :
    I { k with session := { k.session with expansions := k.session.expansions ++ [e] } }

/-- Whether a computation preserves an assertion, cut off or not. -/
def Preserves (I : Work → Prop) {α : Type} (x : TypeM α) : Prop :=
  ∀ t : Typing, I t.work → I (last (x t)).work

theorem Preserves.bind {I : Work → Prop} {α β : Type} {x : TypeM α} {f : α → TypeM β}
    (hx : Preserves I x) (hf : ∀ a, Preserves I (f a)) : Preserves I (x >>= f) := by
  intro t ht
  have hfirst := hx t ht
  rw [TypeM.bind_apply]
  revert hfirst
  rcases x t with s | ⟨a, s⟩
  · exact id
  · exact hf a s

/-- What every step of typing preserves, typing preserves. -/
def Preserved.congruence {I : Work → Prop} (h : Preserved I) : TypeM.Congruence where
  Rel x _ := Preserves I x
  pure _ _ ht := ht
  bind hx hf := hx.bind hf
  get _ ht := ht
  scratch f hf _ t ht := (hf t).symm ▸ ht
  register spec owner span _ ht := h.meet ht spec owner span
  declare scope m t ht := by
    unfold defineMethod
    cases scope.selfType.owner with
    | none => exact ht
    | some owner => exact h.declare ht owner m
  importUnknown name t ht := by
    obtain ⟨r, work, hrun, rfl | ⟨hnew, rfl⟩⟩ := TypeM.exists_importUnknown name t
    · rw [hrun]; exact ht
    · rw [hrun]; exact h.importType ht name hnew
  openClass name superclass s t ht := by
    obtain ⟨es, hrun⟩ := openClass_apply name superclass s t.work
    rw [hrun t rfl]
    exact Work.opened_of_unknown name superclass ht (h.importType ht name) fun k persistent hk =>
      h.openType hk name superclass persistent
  expandCall unit call t ht := by
    rw [TypeM.expandCall_apply]
    exact h.expand ht unit call
  record e he _ ht := h.record ht e he

theorem preserves_buildPending {I : Work → Prop} (h : Preserved I) {env : Typer}
    (hbuild : ∀ id, Preserves I (env.build id)) (ps : List (Nat × BuildState)) :
    Preserves I (env.buildPending ps) := by
  have hrel : h.congruence.Rel (env.buildPending ps) (env.buildPending ps) :=
    TypeM.Walk.rel_buildPending hbuild ps
  exact hrel

theorem preserves_within {I : Work → Prop} (h : Preserved I)
    {build : Nat → TypeM (Except Diagnostic Unit)} (hbuild : ∀ id, Preserves I (build id))
    (left : Nat) (scope : Scope) (n : Node) : Preserves I (within build left scope n) := by
  have hrel : h.congruence.Rel (within build left scope n) (within build left scope n) :=
    TypeM.Congruence.rel_within (C := h.congruence) hbuild left scope n
  exact hrel

/-! ### Classes -/

/-- Whether a tree is a class of a name. -/
def IsClass (name : String) (n : Node) : Prop :=
  ∃ superclass body, n.form = .classDef name superclass body

/-- The tree of a unit is a class, and stays one when its inline macros are expanded. -/
theorem isClass_ofSpec {unit : String} {m : MacroSpec} {s : Span} {env : InlineEnv} {n : Node}
    (h : (Extension.ofSpec unit m s).expandInline env = .ok n) : IsClass unit n := by
  unfold Extension.ofSpec Node.expandInline Node.expandInlineM at h
  revert h
  generalize Node.expandInlineM (m := Except Diagnostic) env throw false _ = r
  intro h
  cases r with
  | error d => cases h
  | ok body =>
    cases h
    exact ⟨_, _, rfl⟩

/-- Typing keeps classes. -/
def KeepsClasses (typed : Scope → Node → TypeM (Node × TypeRef)) : Prop :=
  ∀ scope name n t p s, IsClass name n → typed scope n t = .ok (p, s) → IsClass name p.1

theorem keepsClasses_within (build : Nat → TypeM (Except Diagnostic Unit)) (left : Nat) :
    KeepsClasses (within build left) := by
  have hinfer (env : Typer) : KeepsClasses env.infer := by
    rintro scope name ⟨at', form⟩ t p s ⟨superclass, body, rfl⟩ h
    rw [infer, TypeM.bind_apply] at h
    split at h
    · rw [TypeM.bind_apply] at h
      split at h
      · cases h
        exact ⟨_, _, rfl⟩
      · cases h
    · cases h
  cases left with
  | zero => exact hinfer _
  | succ left => exact hinfer _

/-- A program that is a class is compiled to a file for that class alone. -/
theorem entries_ofProgram {name : String} {n : Node} (h : IsClass name n)
    {scopes scopes' : Scopes Node} {files : Artifacts}
    (hrun : (Artifacts.ofProgram n).run scopes = (.ok files, scopes')) :
    ∃ text, files.entries = [(name, text)] := by
  obtain ⟨at', form⟩ := n
  obtain ⟨superclass, body, rfl⟩ := h
  have hstatements : Node.statements ⟨at', .classDef name superclass body⟩ =
      [⟨at', .classDef name superclass body⟩] := rfl
  rw [Artifacts.ofProgram, hstatements, Artifacts.addClasses, bind_assoc, run_bind_apply] at hrun
  split at hrun
  · rename_i image scopes₁ himage
    cases hrun
    exact ⟨_, rfl⟩
  · cases hrun

/-! ### Rules -/

/-- Whether a computation leads from every session with `P` to one with `Q`, unless it
    fails in one with `E` or is cut off in one with `X`. -/
def Holds {α : Type} (P : Work → Prop) (x : ExceptT Diagnostic TypeM α) (Q : α → Work → Prop)
    (E : Diagnostic → Work → Prop) (X : Work → Prop) : Prop :=
  ∀ t : Typing, P t.work → match x.run t with
    | .ok (.ok a, s) => Q a s.work
    | .ok (.error e, s) => E e s.work
    | .error s => X s.work

namespace Holds

variable {α β : Type} {P : Work → Prop} {x : ExceptT Diagnostic TypeM α} {Q : α → Work → Prop}
  {R : β → Work → Prop} {E : Diagnostic → Work → Prop} {X : Work → Prop}

theorem pure (a : α) (h : ∀ k, P k → Q a k) : Holds P (Pure.pure a) Q E X :=
  fun t ht => h t.work ht

/-- What holds before, and after in every case, is preserved. -/
theorem preserves {I : Work → Prop} (h : Holds I x (fun _ => I) (fun _ => I) I) :
    Preserves I x.run := by
  intro t ht
  have h := h t ht
  revert h
  rcases x.run t with s | ⟨e | a, s⟩
  · exact id
  · exact id
  · exact id

/-- What is known before may be weakened, and what is known of failures too. -/
theorem weaken {P' : Work → Prop} {E' : Diagnostic → Work → Prop} (h : Holds P x Q E X)
    (hP : ∀ k, P' k → P k) (hE : ∀ e k, E e k → E' e k) : Holds P' x Q E' X := by
  intro t ht
  have h := h t (hP _ ht)
  revert h
  rcases x.run t with s | ⟨e | a, s⟩
  · exact id
  · exact hE e s.work
  · exact id

theorem bind {f : α → ExceptT Diagnostic TypeM β} (hx : Holds P x Q E X)
    (hf : ∀ a, Holds (Q a) (f a) R E X) : Holds P (x >>= f) R E X := by
  intro t ht
  have h := hx t ht
  rw [run_bind]
  revert h
  rcases x.run t with s | ⟨e | a, s⟩
  · exact id
  · exact id
  · exact hf a s

/-- What is known of the results so far need not be carried along. -/
theorem assuming {p : Prop} (h : p → Holds P x Q E X) : Holds (fun k => P k ∧ p) x Q E X :=
  fun t ht => h ht.2 t ht.1

/-- A step of the session. -/
theorem step {body : SessionM α} (hok : ∀ k a, P k → (body.run k).1 = .ok a → Q a (body.run k).2)
    (herror : ∀ k e, P k → (body.run k).1 = .error e → E e (body.run k).2) :
    Holds P (Typer.step body) Q E X := by
  intro t ht
  show match TypeM.attempt body t with
    | .ok (.ok a, s) => Q a s.work
    | .ok (.error e, s) => E e s.work
    | .error s => X s.work
  rw [TypeM.attempt_apply]
  have hok := hok t.work
  have herror := herror t.work
  revert hok herror
  rcases body.run t.work with ⟨e | a, k⟩
  · exact fun _ herror => herror e ht rfl
  · exact fun hok _ => hok a ht rfl

/-- A step of typing that is not cut off. -/
theorem lift {x : TypeM α} (h : ∀ t : Typing, P t.work → ∃ a s, x t = .ok (a, s) ∧ Q a s.work) :
    Holds P (ExceptT.lift x) Q E X := by
  intro t ht
  obtain ⟨a, s, hx, hs⟩ := h t ht
  have hrun : (ExceptT.lift x : ExceptT Diagnostic TypeM α).run t = .ok (.ok a, s) := by
    show (Except.ok <$> x) t = _
    rw [map_eq_pure_bind, TypeM.bind_apply, hx]
    rfl
  rw [hrun]
  exact hs

/-- Noting how far a definition is. -/
theorem note {Q : Work → Prop} (id : Nat) (state : BuildState)
    (h : ∀ k, P k → Q (k.noting id state)) :
    Holds P (ExceptT.lift (transition id state)) (fun _ => Q) E X :=
  lift fun t ht => ⟨(), _, rfl, h t.work ht⟩

/-- Typing a unit, which stays a class. -/
theorem inferUnit {typed : Scope → Node → TypeM (Node × TypeRef)} {unit : String} {n : Node}
    (hclasses : KeepsClasses typed) (hn : IsClass unit n)
    (htyped : ∀ scope n (t : Typing), P t.work → P (last (typed scope n t)).work)
    (hE : ∀ e k, P k → E e k) (hX : ∀ k, P k → X k) (scope : Scope) :
    Holds P (Typer.inferUnit typed scope n) (fun n k => P k ∧ IsClass unit n) E X := by
  intro t ht
  have hkept := htyped scope n { t with locals := {}, errors := [] } ht
  have hclass := hclasses scope unit n { t with locals := {}, errors := [] }
  simp only [Typer.inferUnit, ExceptT.run, ExceptT.mk, TypeM.bind_apply, TypeM.get_apply,
    TypeM.modify_apply]
  revert hkept hclass
  rcases typed scope n { t with locals := {}, errors := [] } with s | ⟨p, s⟩
  · exact fun hkept _ => hX _ hkept
  · intro hkept hclass
    dsimp only
    cases hs : s.errors with
    | nil => exact ⟨hkept, hclass p s hn rfl⟩
    | cons e _ => exact hE e _ hkept

/-- What precedes loading.  Its result is the next unit, and a file for it alone. -/
theorem prepare {I : Work → Prop} {U : String → Prop}
    {typed : Scope → Node → TypeM (Node × TypeRef)} (hclasses : KeepsClasses typed) (id : Nat)
    (d : MacroDefinition)
    (hextend : ∀ k, P k → I (k.naming id d.owner) ∧ U (k.nextUnit d.owner))
    (hnote : ∀ k, I k → I (k.noting id .compiling))
    (htyped : ∀ scope n (t : Typing), I t.work → I (last (typed scope n t)).work)
    (hscopes : ∀ (k : Work) scopes, I k → I { k with session := { k.session with scopes } })
    (hE : ∀ e k, I k → E e k) (hX : ∀ k, I k → X k) :
    Holds P (Typer.prepare typed id d)
      (fun p k => I k ∧ U p.1 ∧ ∃ text, p.2.entries = [(p.1, text)]) E X := by
  refine bind (Q := fun p k => I k ∧ (U p.1 ∧ IsClass p.1 p.2)) (step ?_ ?_) fun ⟨unit, n⟩ => ?_
  · -- the unit is put together
    intro k p hk hok
    rw [extend_run] at hok ⊢
    dsimp only at hok
    cases hn : (Extension.ofSpec (k.nextUnit d.owner) d.spec d.span).expandInline
        k.session.inlineEnv with
    | error e => rw [hn] at hok; cases hok
    | ok n =>
      rw [hn] at hok
      cases hok
      exact ⟨(hextend k hk).1, (hextend k hk).2, isClass_ofSpec hn⟩
  · intro k e hk _
    rw [extend_run]
    exact hE e _ (hextend k hk).1
  · refine assuming fun ⟨hunit, hclass⟩ => ?_
    refine bind (note id _ hnote) fun _ => ?_
    refine bind (Q := fun _ => I) (lift fun t ht => ⟨_, t, rfl, ht⟩) fun s => ?_
    -- typing and compiling keep the class
    refine bind (inferUnit hclasses hclass htyped hE hX _) fun n => assuming fun hclass => ?_
    refine bind (Q := fun files k => I k ∧ ∃ text, files.entries = [(unit, text)])
      (step ?_ fun k e hk _ => hE e _ (hscopes k _ hk)) fun files => ?_
    · intro k files hk hok
      exact ⟨hscopes k _ hk, entries_ofProgram hclass (Prod.ext hok rfl)⟩
    · exact pure _ fun k hk => ⟨hk.1, hunit, hk.2⟩

end Holds

end Typer

end Quasiquote
