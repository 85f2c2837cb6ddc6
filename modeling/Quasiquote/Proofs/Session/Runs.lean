import Mathlib.Logic.Relation
import Quasiquote.Session.Compile
import Quasiquote.Proofs.Session.Steps
import Quasiquote.Proofs.Typing.Congruence

namespace Quasiquote

/-!
# Runs — sequences of steps

Whatever typing and building do to a session is a sequence of a few kinds of steps.
So what every step keeps is kept by every computation, cut off or not.

* `Work.Step`, `Work.Run` — one step, and sequences of them;
* `Work.Step.definitions_cases`, `Work.Step.definition_stays`, `Work.Step.expansions_cases` —
  what a step does to the definitions and to the recorded expansions;
* `TypeM.Ends`, `TypeM.Ends.congruence` — computations that are never cut off, and
  congruences that hold for all of these;
* `TypeM.Runs` — computations that are sequences of steps, cut off or not;
* `Typer.runs_require`, `Typer.runs_inferWithin` — building and typing are such;
* `Work.compileWithin_cases`, `Work.finish_cases` — what a compilation is made of.
-/

namespace Work

/-- One step of typing or building. -/
inductive Step : Work → Work → Prop
  | meet (k : Work) (spec : MacroSpec) (owner : String) (span : Span) :
    Step k { k with session := { k.session with definitions :=
      k.session.definitions ++ [{ spec, owner, span, source := k.session.source }] } }
  | declare (k : Work) (owner : String) (m : Method) :
    Step k { k with session := { k.session with
      types := k.session.types.modify owner (·.define m) } }
  | importType (k : Work) (name : String) : Step k ((SessionM.importType name).run k).2
  | openType (k : Work) (name : String) (superclass : Option String) (persistent : Bool) :
    Step k { k with session := { k.session with
      types := k.session.types.openType name superclass persistent } }
  | expand (k : Work) (unit : LoadedUnit) (call : Node) :
    Step k ⟨{ k.session with scopes := (k.expanded unit call).scopes },
      { k.world with printed := k.world.printed ++ (k.expanded unit call).output }⟩
  | record (k : Work) (e : ExpansionStep) (h : e.depth < Typer.expansionLimit) :
    Step k { k with session := { k.session with expansions := k.session.expansions ++ [e] } }
  | transition (k : Work) (id : Nat) (state : BuildState) (h : state ≠ .unresolved) :
    Step k (k.noting id state)
  | extend (k : Work) (id : Nat) (d : MacroDefinition) : Step k ((Typer.extend id d).run k).2
  | lower (k : Work) (n : Node) :
    Step k ((SessionM.onScopes (Artifacts.ofProgram n)).run k).2
  | load (k : Work) (unit : String) (files : Artifacts) :
    Step k ((SessionM.loadUnit unit files).run k).2
  | registerMacro (k : Work) (d : MacroDefinition) (unit : String) (loaded : LoadedUnit)
      (h : k.units.get? unit = some loaded) :
    Step k ((Typer.registerMacro d unit loaded).run k).2
  | persist (k : Work) (files : Artifacts) : Step k ((Typer.persist files).run k).2
  | fail (k : Work) (id : Nat) (e : Diagnostic) :
    Step k { k with session := k.session.modifyDefinition id fun d =>
      { d with state := .failed, failure := some e } }

/-- A sequence of steps. -/
def Run : Work → Work → Prop := Relation.ReflTransGen Step

theorem Run.refl (k : Work) : Run k k := Relation.ReflTransGen.refl

theorem Run.trans {k₁ k₂ k₃ : Work} (h : Run k₁ k₂) (h' : Run k₂ k₃) : Run k₁ k₃ :=
  Relation.ReflTransGen.trans h h'

theorem Step.run {k k' : Work} (h : Step k k') : Run k k' := Relation.ReflTransGen.single h

/-! ### What steps change -/

/-- A step leaves all definitions alone, meets a new one, or changes one of them without
    making it new again. -/
theorem Step.definitions_cases {k k' : Work} (h : Step k k') :
    k'.session.definitions = k.session.definitions ∨
    (∃ d, d.state = .unresolved ∧ k'.session.definitions = k.session.definitions ++ [d]) ∨
    ∃ id f, k'.session.definitions = k.session.definitions.modify id f ∧
      ∀ d, (f d).state = d.state ∨ (f d).state ≠ .unresolved := by
  cases h
  case meet => exact .inr (.inl ⟨_, rfl, rfl⟩)
  case importType name =>
    obtain ⟨types, units, h⟩ := SessionM.keeps_importType name k
    exact .inl (by rw [h, definitions_withUnits])
  case transition id state h => exact .inr (.inr ⟨id, _, rfl, fun _ => .inr h⟩)
  case extend id d =>
    rw [Typer.extend_run]
    exact .inr (.inr ⟨id, _, rfl, fun _ => .inl rfl⟩)
  case load unit files =>
    obtain ⟨units, h⟩ := SessionM.keeps_loadUnit unit files k
    exact .inl (by rw [h, definitions_withUnits])
  case registerMacro d unit loaded h =>
    exact .inl (Typer.definitions_registerMacro d unit loaded k)
  case persist files => exact .inl (by rw [Typer.session_persist])
  case fail id e => exact .inr (.inr ⟨id, _, rfl, fun _ => .inr nofun⟩)
  all_goals exact .inl rfl

/-- A step keeps what definitions define, and for which type. -/
theorem Step.definition_stays {k k' : Work} (h : Step k k') {id : Nat} {d : MacroDefinition}
    (hd : k.session.definition? id = some d) :
    ∃ d', k'.session.definition? id = some d' ∧ d'.spec = d.spec ∧ d'.owner = d.owner := by
  have hsame (h : k'.session.definitions = k.session.definitions) :
      ∃ d', k'.session.definition? id = some d' ∧ d'.spec = d.spec ∧ d'.owner = d.owner :=
    ⟨d, by rwa [Session.definition?, h], rfl, rfl⟩
  have hmodify (other : Nat) {f : MacroDefinition → MacroDefinition}
      (h : k'.session.definitions = k.session.definitions.modify other f)
      (hf : ∀ d, (f d).spec = d.spec ∧ (f d).owner = d.owner) :
      ∃ d', k'.session.definition? id = some d' ∧ d'.spec = d.spec ∧ d'.owner = d.owner := by
    by_cases hid : id = other
    · subst hid
      exact ⟨f d, Session.definition?_modify_self h hd, hf d⟩
    · exact ⟨d, (Session.definition?_modify_ne h hid).trans hd, rfl, rfl⟩
  cases h
  case meet =>
    have hlt := (List.getElem?_eq_some_iff.1 hd).1
    exact ⟨d, (List.getElem?_append_left hlt).trans hd, rfl, rfl⟩
  case importType name =>
    obtain ⟨types, units, h⟩ := SessionM.keeps_importType name k
    exact hsame (by rw [h, definitions_withUnits])
  case transition other state _ => exact hmodify other rfl fun _ => ⟨rfl, rfl⟩
  case extend other d' =>
    rw [Typer.extend_run] at hmodify ⊢
    exact hmodify other rfl fun _ => ⟨rfl, rfl⟩
  case load unit files =>
    obtain ⟨units, h⟩ := SessionM.keeps_loadUnit unit files k
    exact hsame (by rw [h, definitions_withUnits])
  case registerMacro d unit loaded _ =>
    exact hsame (Typer.definitions_registerMacro d unit loaded k)
  case persist => exact hsame (by rw [Typer.session_persist])
  case fail other e => exact hmodify other rfl fun _ => ⟨rfl, rfl⟩
  all_goals exact hsame rfl

theorem Run.definition_stays {k k' : Work} (h : k.Run k') {id : Nat} {d : MacroDefinition}
    (hd : k.session.definition? id = some d) :
    ∃ d', k'.session.definition? id = some d' ∧ d'.spec = d.spec ∧ d'.owner = d.owner := by
  induction h with
  | refl => exact ⟨d, hd, rfl, rfl⟩
  | tail _ hstep ih =>
    obtain ⟨d₁, hd₁, hspec, howner⟩ := ih
    obtain ⟨d₂, hd₂, hspec', howner'⟩ := hstep.definition_stays hd₁
    exact ⟨d₂, hd₂, hspec'.trans hspec, howner'.trans howner⟩

/-- A step leaves the recorded expansions alone, or records one that does not come from
    too many others. -/
theorem Step.expansions_cases {k k' : Work} (h : Step k k') :
    k'.session.expansions = k.session.expansions ∨
    ∃ e : ExpansionStep, e.depth < Typer.expansionLimit ∧
      k'.session.expansions = k.session.expansions ++ [e] := by
  cases h
  case record e h => exact .inr ⟨e, h, rfl⟩
  case importType name =>
    obtain ⟨types, units, h⟩ := SessionM.keeps_importType name k
    exact .inl (by rw [h, expansions_withUnits])
  case extend id d =>
    rw [Typer.extend_run]
    exact .inl rfl
  case load unit files =>
    obtain ⟨units, h⟩ := SessionM.keeps_loadUnit unit files k
    exact .inl (by rw [h, expansions_withUnits])
  case registerMacro d unit loaded h =>
    rw [Typer.registerMacro_run]
    exact .inl (by split <;> rfl)
  case persist files => exact .inl (by rw [Typer.session_persist])
  all_goals exact .inl rfl

/-- The expansions that a run records do not come from too many others. -/
theorem Run.exists_expansions {k k' : Work} (h : k.Run k') :
    ∃ es : List ExpansionStep, k'.session.expansions = k.session.expansions ++ es ∧
      ∀ e ∈ es, e.depth < Typer.expansionLimit := by
  induction h with
  | refl => exact ⟨[], by simp, by simp⟩
  | tail _ hstep ih =>
    obtain ⟨es, hes, hdepth⟩ := ih
    rcases hstep.expansions_cases with hsame | ⟨e, he, hmore⟩
    · exact ⟨es, hsame.trans hes, hdepth⟩
    · refine ⟨es ++ [e], by rw [hmore, hes, List.append_assoc], fun x hx => ?_⟩
      rcases List.mem_append.1 hx with hx | hx
      · exact hdepth x hx
      · exact List.mem_singleton.1 hx ▸ he

end Work

namespace TypeM

/-! ### Steps that end -/

/-- Whether a computation takes steps and is never cut off. -/
def Ends {α : Type} (x : TypeM α) : Prop :=
  ∀ t : Typing, ∃ a s, x t = .ok (a, s) ∧ t.work.Run s.work

namespace Ends

/-- A step of the session inside typing ends. -/
theorem of_attempt {α : Type} {body : SessionM α} (h : ∀ k, Work.Step k (body.run k).2) :
    Ends (attempt body) :=
  fun t => ⟨_, _, attempt_apply body t, (h t.work).run⟩

/-- A computation that leaves the session alone ends. -/
theorem of_work {α : Type} {x : TypeM α}
    (h : ∀ t : Typing, ∃ a s, x t = .ok (a, s) ∧ s.work = t.work) : Ends x := by
  intro t
  obtain ⟨a, s, hx, hs⟩ := h t
  exact ⟨a, s, hx, hs ▸ .refl _⟩

theorem declare (scope : Scope) (m : Method) : Ends (Typer.defineMethod scope m) := by
  intro t
  unfold Typer.defineMethod
  cases scope.selfType.owner with
  | none => exact ⟨_, _, rfl, .refl _⟩
  | some owner => exact ⟨_, _, rfl, (Work.Step.declare t.work owner m).run⟩

theorem importUnknown (name : String) : Ends (TypeM.importUnknown name) := by
  intro t
  obtain ⟨r, work, hrun, rfl | ⟨-, rfl⟩⟩ := exists_importUnknown name t
  · exact ⟨r, _, hrun, .refl _⟩
  · exact ⟨r, _, hrun, (Work.Step.importType t.work name).run⟩

theorem openClass (name : String) (superclass : Option String) (s : Span) :
    Ends (Typer.openClass name superclass s) := by
  intro t
  obtain ⟨es, hrun⟩ := Typer.openClass_apply name superclass s t.work
  exact ⟨_, _, hrun t rfl, Work.opened_of (P := t.work.Run) name superclass (.refl _)
    (Work.Step.importType t.work name).run fun k persistent hk =>
      hk.trans (Work.Step.openType k name superclass persistent).run⟩

theorem publish (id : Nat) (d : MacroDefinition) (unit : String) (files : Artifacts) :
    Ends (Typer.publish id d unit files).run := by
  intro t
  have hnote := (Work.Step.transition t.work id .loading (by decide)).run
  rcases Typer.publish_cases id d unit files t with ⟨e, h⟩ | ⟨u, units, -, -, hu, hload, h⟩
  · exact ⟨_, _, h, hnote⟩
  · have hfirst := Work.Step.load (t.work.noting id .loading) unit files
    rw [hload] at hfirst
    refine ⟨_, _, h, hnote.trans (hfirst.run.trans ?_)⟩
    exact (Work.Step.transition _ id .registering (by decide)).run.trans
      (Work.Step.registerMacro (((t.work.noting id .loading).withUnits units).noting id
        .registering) d unit u hu).run

/-- A relation that every computation that ends has to itself is a congruence if
    sequencing keeps it. -/
def congruence (Rel : {α : Type} → TypeM α → TypeM α → Prop)
    (hends : ∀ {α : Type} {x : TypeM α}, Ends x → Rel x x)
    (hbind : ∀ {α β : Type} {x y : TypeM α} {f g : α → TypeM β},
      Rel x y → (∀ a, Rel (f a) (g a)) → Rel (x >>= f) (y >>= g)) : BuildCongruence where
  Rel := Rel
  pure a := hends (of_work fun t => ⟨a, t, rfl, rfl⟩)
  bind := hbind
  get := hends (of_work fun t => ⟨t, t, rfl, rfl⟩)
  scratch f h _ := hends (of_work fun t => ⟨(), f t, rfl, h t⟩)
  aside f h := hends (of_work fun t => ⟨(), f t, rfl, h t⟩)
  register spec owner span :=
    hends fun t => ⟨_, _, rfl, (Work.Step.meet t.work spec owner span).run⟩
  declare scope m := hends (declare scope m)
  importUnknown name := hends (importUnknown name)
  openClass name superclass s := hends (openClass name superclass s)
  expandCall unit call := hends fun t =>
    ⟨_, _, expandCall_apply unit call t, (Work.Step.expand t.work unit call).run⟩
  record e h := hends fun t => ⟨_, _, rfl, (Work.Step.record t.work e h).run⟩
  transition id state h :=
    hends fun t => ⟨_, _, rfl, (Work.Step.transition t.work id state h).run⟩
  extend id d := hends (of_attempt fun k => .extend k id d)
  lower n := hends (of_attempt fun k => .lower k n)
  publish id d unit files := hends (publish id d unit files)
  persist files := hends (of_attempt fun k => .persist k files)
  fail id e := hends fun t => ⟨_, _, rfl, (Work.Step.fail t.work id e).run⟩

end Ends

/-! ### Computations that take steps -/

/-- Whether a computation takes steps only, until it ends or is cut off. -/
def Runs {α : Type} (x : TypeM α) : Prop := ∀ t : Typing, t.work.Run (last (x t)).work

theorem Runs.bind {α β : Type} {x : TypeM α} {f : α → TypeM β} (h : Runs x)
    (hf : ∀ a, Runs (f a)) : Runs (x >>= f) := by
  intro t
  have hx := h t
  rw [bind_apply]
  revert hx
  cases x t with
  | error s => exact id
  | ok p => exact fun hx => hx.trans (hf p.1 p.2)

/-- A computation that ends has taken steps. -/
theorem Runs.run {α : Type} {x : TypeM α} (h : Runs x) {t t' : Typing} {a : α}
    (hx : x t = .ok (a, t')) : t.work.Run t'.work := by
  have hrun := h t
  rw [hx] at hrun
  exact hrun

theorem Ends.runs {α : Type} {x : TypeM α} (h : Ends x) : Runs x := by
  intro t
  obtain ⟨a, s, hx, hrun⟩ := h t
  rw [hx]
  exact hrun

/-- Taking steps is a congruence, of which both sides are the same. -/
def running : BuildCongruence := Ends.congruence (fun x _ => Runs x) Ends.runs Runs.bind

theorem Runs.within {build : Nat → TypeM (Except Diagnostic Unit)} (h : ∀ id, Runs (build id))
    (left : Nat) (scope : Scope) (n : Node) : Runs (Typer.within build left scope n) := by
  have hrel : running.Rel (Typer.within build left scope n) (Typer.within build left scope n) :=
    Congruence.rel_within (C := running.toCongruence) h left scope n
  exact hrel

theorem Runs.buildDefinition {typed : Scope → Node → TypeM (Node × TypeRef)}
    (h : ∀ scope n, Runs (typed scope n)) (id : Nat) (d : MacroDefinition) :
    Runs (Typer.buildDefinition typed id d) := by
  have hrel : running.Rel (Typer.buildDefinition typed id d)
      (Typer.buildDefinition typed id d) := running.rel_buildDefinition h id d
  exact hrel

end TypeM

namespace Typer

open TypeM

/-- Building takes steps only. -/
theorem runs_require (n id : Nat) : Runs (require n id) := by
  induction n generalizing id with
  | zero =>
    intro t
    rcases require_cases id t with ⟨r, hr⟩ | ⟨d, -, -, hcut, -⟩
    · rw [hr]; exact .refl _
    · rw [hcut]; exact .refl _
  | succ n ih =>
    intro t
    rcases require_cases id t with ⟨r, hr⟩ | ⟨d, -, -, -, hbuild⟩
    · rw [hr]; exact .refl _
    · rw [hbuild]
      exact Runs.buildDefinition (Runs.within ih _) id d t

/-- Typing takes steps only. -/
theorem runs_inferWithin (n : Nat) (scope : Scope) (tree : Node) :
    Runs (inferWithin n scope tree) :=
  Runs.within (runs_require n) expansionLimit scope tree

end Typer

namespace Work

/-! ### Compilations -/

/-- The session that a compilation leaves behind. -/
def left : Except Work (Except Diagnostic Compilation × Work) → Work
  | .ok (_, k) => k
  | .error k => k

/-- The session in which a compilation ends or is cut off. -/
def reached (k : Work) (nesting : Nat) (source text : String) : Work :=
  left (k.compileWithin nesting source text)

theorem reached_of_ok {k : Work} {n : Nat} {source text : String}
    {p : Except Diagnostic Compilation × Work} (h : k.compileWithin n source text = .ok p) :
    k.reached n source text = p.2 :=
  congrArg left h

theorem reached_of_cutOff {k k' : Work} {n : Nat} {source text : String}
    (h : k.compileWithin n source text = .error k') : k.reached n source text = k' :=
  congrArg left h

/-- What typing leaves behind becomes the result of a compilation. -/
def outcome (k : Work) (markers : List Diagnostic) :
    Except Typing ((Node × TypeRef) × Typing) →
      Except Work (Except Diagnostic Compilation × Work)
  | .error t => .error t.work
  | .ok (p, t) => .ok (t.work.finish {
      program := p.1
      errors := markers ++ t.errors
      warnings := t.work.session.warnings.drop k.session.warnings.length
      expansions := t.work.session.expansions.drop k.session.expansions.length })

/-- A compilation fails on a text that is no program, or it types a tree. -/
theorem compileWithin_cases (k : Work) (source text : String) :
    (∃ d, ∀ n, k.compileWithin n source text = .ok (.error d, k.enter source)) ∨
    ∃ markers scope tree, ∀ n, k.compileWithin n source text =
      (k.enter source).outcome markers
        (Typer.inferWithin n scope tree { work := k.enter source }) := by
  unfold compileWithin
  cases Program.parse source text with
  | error d => exact .inl ⟨d, fun _ => rfl⟩
  | ok tree =>
    let inlined := tree.expandInlineAll (k.enter source).session.inlineEnv
    refine .inr ⟨inlined.2, Scope.script (k.enter source).session.settings.scriptType,
      inlined.1, fun n => ?_⟩
    simp only [StateT.run]
    cases Typer.inferWithin n (Scope.script (k.enter source).session.settings.scriptType) inlined.1
      { work := k.enter source } <;> rfl

/-- A text that is a program is typed. -/
theorem compileWithin_of_parse {k : Work} (nesting : Nat) {source text : String} {parsed : Node}
    (hparse : Program.parse source text = .ok parsed) :
    let inlined := parsed.expandInlineAll (k.enter source).session.inlineEnv
    k.compileWithin nesting source text = (k.enter source).outcome inlined.2
      (Typer.inferWithin nesting (Scope.script (k.enter source).session.settings.scriptType)
        inlined.1 { work := k.enter source }) := by
  intro inlined
  unfold compileWithin
  rw [hparse]
  dsimp only [StateT.run]
  cases Typer.inferWithin nesting (Scope.script (k.enter source).session.settings.scriptType)
    inlined.1 { work := k.enter source } <;> rfl

/-- What a compilation leaves behind when its descriptors are written. -/
def describing (k : Work) : Work := (SessionM.writeDescriptors.run k).2

theorem describing_eq (k : Work) : k.describing = match k.session.settings.destination with
    | none => k
    | some root => { k with world := { k.world with
        files := ((Descriptor.writeAll root k.session.types.descriptors).run k.world.files).2 } } := by
  simp only [describing, SessionM.writeDescriptors, run_bind_apply, run_get_apply]
  cases k.session.settings.destination <;> rfl

theorem snd_finish (k : Work) (c : Compilation) : (k.finish c).2 = k.describing := by
  show ((SessionM.writeDescriptors >>= fun _ => pure c : SessionM Compilation).run k).2 = _
  rw [run_bind_apply, describing]
  rcases SessionM.writeDescriptors.run k with ⟨_ | _, _⟩ <;> rfl

/-- Writing descriptors changes files only. -/
theorem exists_describing (k : Work) :
    ∃ files, k.describing = { k with world := { k.world with files } } := by
  rw [describing_eq]
  cases k.session.settings.destination with
  | none => exact ⟨k.world.files, rfl⟩
  | some root => exact ⟨_, rfl⟩

theorem finish_cases (k : Work) (c : Compilation) :
    (∃ files, (k.finish c).2 = { k with world := { k.world with files } }) ∧
      ((k.finish c).1 = .ok c ∨ ∃ d, (k.finish c).1 = .error d) := by
  have hfinish : (k.finish c).1 = (SessionM.writeDescriptors.run k).1.map fun _ => c := by
    show ((SessionM.writeDescriptors >>= fun _ => pure c : SessionM Compilation).run k).1 = _
    rw [run_bind_apply]
    rcases SessionM.writeDescriptors.run k with ⟨_ | _, _⟩ <;> rfl
  refine ⟨snd_finish k c ▸ k.exists_describing, ?_⟩
  rw [hfinish]
  cases (SessionM.writeDescriptors.run k).1 with
  | ok _ => exact .inl rfl
  | error d => exact .inr ⟨d, rfl⟩

end Work

end Quasiquote
