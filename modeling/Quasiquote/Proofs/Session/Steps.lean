import Quasiquote.Typing.Build
import Quasiquote.Proofs.Types.Registry
import Quasiquote.Proofs.State
import Quasiquote.Proofs.Unit.Namespace

namespace Quasiquote

/-!
# Steps of a session — what each of them changes

Every step of a session changes a few parts of it and leaves the others alone.

* `Session.definition?_modify` — a session in which one definition was changed;
* `Work.units_withUnits`, `Work.withUnits_units` — the loaded units of a session;
* `SessionM.importType_run` — importing a type changes types and loaded units;
* `TypeM.expandCall_apply` — expanding a call changes scopes and printed text;
* `Typer.extend_run` — a new unit takes a number, and its definition takes its name;
* `Typer.registerMacro_run`, `Typer.persist_run` — the two ways in which a macro is
  made known.
-/

namespace Session

/-! ### Definitions -/

variable {s s' : Session} {id other : Nat} {d : MacroDefinition}
  {f : MacroDefinition → MacroDefinition}

/-- Where one definition is changed, the others stay. -/
theorem definition?_modify (h : s'.definitions = s.definitions.modify id f) (other : Nat) :
    s'.definition? other =
      if other = id then (s.definition? id).map f else s.definition? other := by
  simp only [definition?, h, List.getElem?_modify]
  by_cases hother : other = id
  · subst hother
    simp
  · rw [if_neg hother]
    simp [Ne.symm hother]

theorem definition?_modify_self (h : s'.definitions = s.definitions.modify id f)
    (hd : s.definition? id = some d) : s'.definition? id = some (f d) := by
  rw [definition?_modify h, if_pos rfl, hd, Option.map_some]

theorem definition?_modifyDefinition (hd : s.definition? id = some d) :
    (s.modifyDefinition id f).definition? id = some (f d) := definition?_modify_self rfl hd

theorem definition?_modify_ne (h : s'.definitions = s.definitions.modify id f) (hne : other ≠ id) :
    s'.definition? other = s.definition? other := by
  rw [definition?_modify h, if_neg hne]

/-- A definition is the one that was changed, or it was there before. -/
theorem definition?_modify_cases (h : s'.definitions = s.definitions.modify id f)
    (hd : s'.definition? other = some d) :
    (other = id ∧ ∃ d₀, s.definition? id = some d₀ ∧ d = f d₀) ∨
      other ≠ id ∧ s.definition? other = some d := by
  rw [definition?_modify h] at hd
  by_cases hid : other = id
  · rw [if_pos hid] at hd
    obtain ⟨d₀, hd₀, hf⟩ := Option.map_eq_some_iff.1 hd
    exact .inl ⟨hid, d₀, hd₀, hf.symm⟩
  · rw [if_neg hid] at hd
    exact .inr ⟨hid, hd⟩

end Session

namespace Work

/-! ### Loaded units -/

/-- A session with other loaded units is the same in every other respect. -/
theorem withUnits_eq (k : Work) (units : Namespace) : ∃ backend shared,
    k.withUnits units = ⟨{ k.session with backend }, { k.world with shared }⟩ := by
  unfold withUnits
  split
  · exact ⟨_, _, rfl⟩
  · exact ⟨_, _, rfl⟩
  · exact ⟨_, _, rfl⟩

variable (k : Work) (units : Namespace)

@[simp] theorem definitions_withUnits :
    (k.withUnits units).session.definitions = k.session.definitions := by
  obtain ⟨_, _, h⟩ := k.withUnits_eq units; rw [h]

@[simp] theorem types_withUnits : (k.withUnits units).session.types = k.session.types := by
  obtain ⟨_, _, h⟩ := k.withUnits_eq units; rw [h]

@[simp] theorem settings_withUnits :
    (k.withUnits units).session.settings = k.session.settings := by
  obtain ⟨_, _, h⟩ := k.withUnits_eq units; rw [h]

@[simp] theorem counter_withUnits :
    (k.withUnits units).session.counter = k.session.counter := by
  obtain ⟨_, _, h⟩ := k.withUnits_eq units; rw [h]

@[simp] theorem expansions_withUnits :
    (k.withUnits units).session.expansions = k.session.expansions := by
  obtain ⟨_, _, h⟩ := k.withUnits_eq units; rw [h]

@[simp] theorem files_withUnits : (k.withUnits units).world.files = k.world.files := by
  obtain ⟨_, _, h⟩ := k.withUnits_eq units; rw [h]

@[simp] theorem accepts_withUnits : (k.withUnits units).accepts = k.accepts := by
  obtain ⟨⟨_, _, backend⟩, world⟩ := k
  cases backend <;> rfl

/-- A session that accepts units has those that it is given. -/
theorem units_withUnits (h : k.accepts = true) : (k.withUnits units).units = units := by
  obtain ⟨⟨_, _, backend⟩, world⟩ := k
  cases backend with
  | own _ => rfl
  | shared => rfl
  | rejecting => cases h

/-- A session that accepts no units has none. -/
theorem get?_units_of_not_accepts (h : ¬ k.accepts = true) (name : String) :
    k.units.get? name = none := by
  obtain ⟨⟨_, _, backend⟩, world⟩ := k
  cases backend with
  | own _ => exact absurd rfl h
  | shared => exact absurd rfl h
  | rejecting => rfl

/-- A session has the units that it has. -/
@[simp] theorem withUnits_units : k.withUnits k.units = k := by
  obtain ⟨⟨_, _, backend⟩, world⟩ := k
  cases backend <;> rfl

@[simp] theorem withUnits_withUnits (more : Namespace) :
    (k.withUnits units).withUnits more = k.withUnits more := by
  obtain ⟨⟨_, _, backend⟩, world⟩ := k
  cases backend <;> rfl

end Work

/-! ### Running steps -/

@[simp] theorem SessionM.modifySession_run (f : Session → Session) (k : Work) :
    (SessionM.modifySession f).run k = (.ok (), { k with session := f k.session }) := rfl

/-- A step of the session inside typing never ends it. -/
@[simp] theorem TypeM.attempt_apply {α : Type} (body : SessionM α) (t : Typing) :
    TypeM.attempt body t = .ok ((body.run t.work).1, { t with work := (body.run t.work).2 }) :=
  rfl

/-- Typing goes on with a result, or is cut off. -/
theorem TypeM.bind_apply {α β : Type} (x : TypeM α) (f : α → TypeM β) (t : Typing) :
    (x >>= f) t = match x t with
      | .ok (a, t) => f a t
      | .error t => .error t := by
  show (x t).bind (fun p => f p.1 p.2) = _
  cases x t <;> rfl

/-- Where a computation ends or is cut off. -/
def TypeM.last {α : Type} : Except Typing (α × Typing) → Typing
  | .ok (_, t) => t
  | .error t => t

@[simp] theorem TypeM.pure_apply {α : Type} (a : α) (t : Typing) :
    (pure a : TypeM α) t = .ok (a, t) := rfl

@[simp] theorem TypeM.get_apply (t : Typing) :
    (MonadState.get : TypeM Typing) t = .ok (t, t) := rfl

@[simp] theorem TypeM.session_apply (t : Typing) :
    TypeM.session t = .ok (t.work.session, t) := rfl

@[simp] theorem TypeM.modify_apply (f : Typing → Typing) (t : Typing) :
    (modify f : TypeM Unit) t = .ok ((), f t) := rfl

@[simp] theorem TypeM.modifySession_apply (f : Session → Session) (t : Typing) :
    TypeM.modifySession f t =
      .ok ((), { t with work := { t.work with session := f t.work.session } }) :=
  rfl

namespace SessionM

/-- Whether sessions differ in loaded units only. -/
def SameButUnits (k k' : Work) : Prop := ∃ units, k' = k.withUnits units

theorem SameButUnits.refl (k : Work) : SameButUnits k k := ⟨k.units, k.withUnits_units.symm⟩

theorem SameButUnits.trans (k₁ k₂ k₃ : Work) :
    SameButUnits k₁ k₂ → SameButUnits k₂ k₃ → SameButUnits k₁ k₃ := by
  rintro ⟨units, rfl⟩ ⟨units', rfl⟩
  exact ⟨units', k₁.withUnits_withUnits units units'⟩

/-- Using loaded units fails and changes nothing, or it answers one of them. -/
theorem withUnits_cases (unit : String)
    (f : Namespace → Work → Except Diagnostic (LoadedUnit × Namespace)) (k : Work) :
    (∃ d, (withUnits unit f).run k = (.error d, k)) ∨
    ∃ u units, k.accepts = true ∧ f k.units k = .ok (u, units) ∧
      (withUnits unit f).run k = (.ok u, k.withUnits units) := by
  by_cases h : k.accepts
  · cases hf : f k.units k with
    | ok p => exact .inr ⟨p.1, p.2, h, rfl, by simp [withUnits, ExceptT.run, ExceptT.mk, h, hf]⟩
    | error d => exact .inl ⟨d, by simp [withUnits, ExceptT.run, ExceptT.mk, h, hf]⟩
  · exact .inl ⟨_, by simp [withUnits, ExceptT.run, ExceptT.mk, h]; rfl⟩

/-- Using loaded units changes nothing else. -/
theorem keeps_withUnits (unit : String)
    (f : Namespace → Work → Except Diagnostic (LoadedUnit × Namespace)) :
    Keeps SameButUnits (withUnits unit f) := by
  intro k
  rcases withUnits_cases unit f k with ⟨d, h⟩ | ⟨u, units, -, -, h⟩
  · rw [h]
    exact .refl k
  · rw [h]
    exact ⟨units, rfl⟩

/-- Loading a unit changes nothing else. -/
theorem keeps_loadUnit (unit : String) (files : Artifacts) (k : Work) :
    ∃ units, ((loadUnit unit files).run k).2 = k.withUnits units := keeps_withUnits unit _ k

/-- Looking units up changes nothing else. -/
theorem keeps_resolveAll (rs : List MacroRecord) : Keeps SameButUnits (resolveAll rs) := by
  induction rs with
  | nil => exact Keeps.pure SameButUnits.refl _
  | cons r rs ih =>
    refine Keeps.bind SameButUnits.trans (keeps_withUnits r.unit _) fun u => ?_
    exact Keeps.bind SameButUnits.trans ih fun _ => Keeps.pure SameButUnits.refl _

/-- Looking units up keeps the records. -/
theorem map_fst_resolveAll (rs : List MacroRecord) (k : Work) (macros) :
    ((resolveAll rs).run k).1 = .ok macros → macros.map Prod.fst = rs := by
  induction rs generalizing k macros with
  | nil =>
    rintro h
    cases h
    rfl
  | cons r rs ih =>
    intro h
    simp only [resolveAll, run_bind_apply] at h
    cases hunit : (resolveUnit r.unit).run k with
    | mk unit k₁ =>
    rw [hunit] at h
    cases unit with
    | error e => cases h
    | ok unit =>
      dsimp only at h
      have hrest := ih k₁
      cases hrun : (resolveAll rs).run k₁ with
      | mk macros' k₂ =>
      rw [hrun] at h hrest
      cases macros' with
      | error e => cases h
      | ok macros' =>
        cases h
        rw [List.map_cons, hrest macros' rfl]

/-- A type is imported if there is a descriptor of it and all of its units are found. -/
theorem importType_run (name : String) (k : Work) :
    (importType name).run k =
      match Descriptor.find k.world.files name k.session.settings.classpath with
      | .error e => (.error e, k)
      | .ok none => (.ok false, k)
      | .ok (some d) => match (resolveAll d.macros).run k with
        | (.error e, k') => (.error e, k')
        | (.ok macros, k') => (.ok true, { k' with session := { k'.session with
            types := k'.session.types.install (.ofDescriptor d macros) } }) := by
  have hanswer {α : Type} (r : Except Diagnostic α) (k : Work) :
      (ExceptT.mk (pure r) : SessionM α).run k = (r, k) := rfl
  simp only [importType, run_bind_apply, run_get_apply, hanswer]
  rcases Descriptor.find k.world.files name k.session.settings.classpath with e | d
  · rfl
  · cases d with
    | none => rfl
    | some d =>
      simp only [run_bind_apply]
      rcases (resolveAll d.macros).run k with ⟨e | macros, k'⟩
      · rfl
      · rfl

/-- Importing a type changes types and loaded units. -/
theorem keeps_importType (name : String) (k : Work) : ∃ types units,
    ((importType name).run k).2 =
      ({ k with session := { k.session with types } } : Work).withUnits units := by
  have hsame : k = ({ k with session := { k.session with types := k.session.types } } :
      Work).withUnits k.units :=
    k.withUnits_units.symm
  rw [importType_run]
  cases Descriptor.find k.world.files name k.session.settings.classpath with
  | error e => exact ⟨_, _, hsame⟩
  | ok found =>
    cases found with
    | none => exact ⟨_, _, hsame⟩
    | some d =>
      obtain ⟨units, hunits⟩ := keeps_resolveAll d.macros k
      revert hunits
      dsimp only
      rcases (resolveAll d.macros).run k with ⟨e | macros, k'⟩
      · rintro rfl
        exact ⟨k.session.types, units, rfl⟩
      · rintro rfl
        refine ⟨k.session.types.install (.ofDescriptor d macros), units, ?_⟩
        obtain ⟨⟨_, _, backend⟩, world⟩ := k
        cases backend <;> rfl

/-- Importing a type leaves all types alone, or it installs that of the descriptor that is found,
    with its records. -/
theorem types_importType_records (name : String) (k : Work) :
    ((importType name).run k).2.session.types = k.session.types ∨ ∃ d macros,
      Descriptor.find k.world.files name k.session.settings.classpath = .ok (some d) ∧
      macros.map Prod.fst = d.macros ∧
      ((importType name).run k).2.session.types =
        k.session.types.install (.ofDescriptor d macros) := by
  rw [importType_run]
  cases Descriptor.find k.world.files name k.session.settings.classpath with
  | error e => exact .inl rfl
  | ok found =>
    cases found with
    | none => exact .inl rfl
    | some d =>
      obtain ⟨units, hunits⟩ := keeps_resolveAll d.macros k
      have hrecords := map_fst_resolveAll d.macros k
      revert hunits hrecords
      dsimp only
      rcases (resolveAll d.macros).run k with ⟨e | macros, k'⟩
      · rintro rfl -
        exact .inl (Work.types_withUnits _ _)
      · rintro rfl hrecords
        exact .inr ⟨d, macros, rfl, hrecords macros rfl,
          congrArg (TypeRegistry.install · (.ofDescriptor d macros)) (k.types_withUnits units)⟩

/-- Importing a type leaves all types alone, or it installs that of the descriptor that is found. -/
theorem types_importType (name : String) (k : Work) :
    ((importType name).run k).2.session.types = k.session.types ∨ ∃ d macros,
      Descriptor.find k.world.files name k.session.settings.classpath = .ok (some d) ∧
      ((importType name).run k).2.session.types =
        k.session.types.install (.ofDescriptor d macros) :=
  (types_importType_records name k).imp_right fun ⟨d, macros, hfind, _, htypes⟩ =>
    ⟨d, macros, hfind, htypes⟩

end SessionM

/-- A unit that is loaded is one of those that the session sees. -/
theorem SessionM.loadUnit_cases (unit : String) (files : Artifacts) (k : Work) :
    (∃ d, (loadUnit unit files).run k = (.error d, k)) ∨
    ∃ u units, k.accepts = true ∧ k.units.load unit files = .ok (u, units) ∧
      (k.withUnits units).units.get? unit = some u ∧
      (loadUnit unit files).run k = (.ok u, k.withUnits units) := by
  rcases withUnits_cases unit (fun units _ => units.load unit files) k with h | ⟨u, units, ha, hl, h⟩
  · exact .inl h
  · obtain ⟨_, -, -, hu⟩ := Namespace.load_ok hl
    exact .inr ⟨u, units, ha, hl, by rwa [Work.units_withUnits _ _ ha], h⟩

/-- A unit that can be loaded is. -/
theorem SessionM.loadUnit_run {k : Work} (h : k.accepts = true) {unit : String} {files : Artifacts}
    {u : LoadedUnit} {units : Namespace} (hload : k.units.load unit files = .ok (u, units)) :
    (loadUnit unit files).run k = (.ok u, k.withUnits units) := by
  simp [loadUnit, withUnits, ExceptT.run, ExceptT.mk, h, hload]

/-- The session in which it is noted how far a definition is. -/
def Work.noting (k : Work) (id : Nat) (state : BuildState) : Work :=
  { k with session := k.session.modifyDefinition id fun d => { d with state } }

@[simp] theorem Work.units_noting (k : Work) (id : Nat) (state : BuildState) :
    (k.noting id state).units = k.units := rfl

/-- What the unit of a macro makes of a call. -/
def Work.expanded (k : Work) (unit : LoadedUnit) (call : Node) : Expanded :=
  let s := { k.session with sites := call.span :: k.session.sites }
  unit.expand (TypeM.evaluation s).template call s.scopes

/-- Expanding a call changes scopes and printed text. -/
theorem TypeM.expandCall_apply (unit : LoadedUnit) (call : Node) (t : Typing) :
    TypeM.expandCall unit call t =
      let r := t.work.expanded unit call
      .ok (r.result.bind fun n => (n.withSpan call.span).expandInline t.work.session.inlineEnv,
        { t with work := ⟨{ t.work.session with scopes := r.scopes },
          { t.work.world with printed := t.work.world.printed ++ r.output }⟩ }) := by
  simp only [expandCall, bind_apply, modifySession_apply, session_apply, modify_apply,
    Work.expanded]
  generalize unit.expand _ call _ = r
  obtain ⟨result, output, scopes⟩ := r
  cases result with
  | error d => rfl
  | ok n => rfl

/-- Imports a type that is not known.  One that is known is there already. -/
def TypeM.importUnknown (name : String) : TypeM (Except Diagnostic Bool) := do
  if (← session).types.contains name then return .ok true
  attempt (SessionM.importType name)

/-- Only a type that is not known is imported. -/
theorem TypeM.exists_importUnknown (name : String) (t : Typing) : ∃ r work,
    importUnknown name t = .ok (r, { t with work }) ∧ (work = t.work ∨
      t.work.session.types.contains name = false ∧
        work = ((SessionM.importType name).run t.work).2) := by
  cases hknown : t.work.session.types.contains name with
  | true => exact ⟨.ok true, t.work, by simp [importUnknown, bind_apply, hknown], .inl rfl⟩
  | false =>
    exact ⟨((SessionM.importType name).run t.work).1, _,
      by simp [importUnknown, bind_apply, hknown], .inr ⟨rfl, rfl⟩⟩

/-- A constant names a type that is known, or that can be imported. -/
theorem Typer.constantType_eq (name : String) (s : Span) :
    constantType name s = TypeM.importUnknown name >>= fun
      | .ok true => return .classOf name
      | .ok false => TypeM.report (.undefinedName name "constant") s
      | .error d => do
        TypeM.collectAt d s
        return .any := by
  rw [constantType, TypeM.importUnknown, bind_assoc]
  refine congrArg (TypeM.session >>= ·) (funext fun k => ?_)
  cases k.types.contains name with
  | true => rfl
  | false => rfl

/-- The session in which a class is opened.  One that lasts and is not known is imported first, if
    there is such a type. -/
def Work.opened (k : Work) (name : String) (superclass : Option String) : Work :=
  let k := if superclass != some extensionType && !k.session.types.contains name then
    ((SessionM.importType name).run k).2 else k
  { k with session := { k.session with
    types := k.session.types.openType name superclass (superclass != some extensionType) } }

/-- What importing a type that is not known and opening one keep, opening a class keeps. -/
theorem Work.opened_of_unknown {P : Work → Prop} {k : Work} (name : String)
    (superclass : Option String) (h : P k)
    (himport : k.session.types.contains name = false → P ((SessionM.importType name).run k).2)
    (hopen : ∀ (k : Work) (persistent : Bool), P k → P { k with session := { k.session with
      types := k.session.types.openType name superclass persistent } }) :
    P (k.opened name superclass) := by
  unfold Work.opened
  refine hopen _ _ ?_
  split
  · rename_i hnew
    simp only [Bool.and_eq_true, Bool.not_eq_true'] at hnew
    exact himport hnew.2
  · exact h

/-- What importing a type and opening one keep, opening a class keeps. -/
theorem Work.opened_of {P : Work → Prop} {k : Work} (name : String) (superclass : Option String)
    (h : P k) (himport : P ((SessionM.importType name).run k).2)
    (hopen : ∀ (k : Work) (persistent : Bool), P k → P { k with session := { k.session with
      types := k.session.types.openType name superclass persistent } }) :
    P (k.opened name superclass) :=
  opened_of_unknown name superclass h (fun _ => himport) hopen

theorem Work.definitions_opened (k : Work) (name : String) (superclass : Option String) :
    (k.opened name superclass).session.definitions = k.session.definitions := by
  refine Work.opened_of (P := fun k' => k'.session.definitions = k.session.definitions) name
    superclass rfl ?_ fun _ _ h => h
  obtain ⟨types, units, h⟩ := SessionM.keeps_importType name k
  rw [h, Work.definitions_withUnits]

/-- A class that has been opened is there. -/
theorem Work.contains_opened (k : Work) (name : String) (superclass : Option String) :
    (k.opened name superclass).session.types.contains name = true := by
  have hopen (r : TypeRegistry) (persistent : Bool) :
      (r.openType name superclass persistent).contains name = true := by
    unfold TypeRegistry.openType
    split
    · assumption
    · simp [TypeRegistry.contains, NameMap.contains]
  exact hopen _ _

/-- Opening a class ends.  That the class cannot be imported is collected. -/
theorem Typer.openClass_apply (name : String) (superclass : Option String) (s : Span) (k : Work) :
    ∃ es, ∀ t : Typing, t.work = k → Typer.openClass name superclass s t =
      .ok ((), { t with work := k.opened name superclass, errors := t.errors ++ es }) := by
  unfold Typer.openClass Work.opened
  by_cases hnew : (superclass != some extensionType && !k.session.types.contains name) = true
  · rcases himport : (SessionM.importType name).run k with ⟨e | known, k'⟩
    · refine ⟨[e.reanchor s k'.session.source], fun t ht => ?_⟩
      subst ht
      simp only [TypeM.bind_apply, TypeM.session_apply, hnew, if_true, TypeM.attempt_apply, himport]
      rfl
    · refine ⟨[], fun t ht => ?_⟩
      subst ht
      simp only [TypeM.bind_apply, TypeM.session_apply, hnew, if_true, TypeM.attempt_apply, himport,
        List.append_nil]
      rfl
  · refine ⟨[], fun t ht => ?_⟩
    subst ht
    simp only [TypeM.bind_apply, TypeM.session_apply, hnew, List.append_nil]
    rfl

/-- The name that the next unit of an owner's macros gets. -/
def Work.nextUnit (k : Work) (owner : String) : String :=
  k.unitName (owner ++ Typer.unitSuffix ++ toString (k.nextNumber (owner ++ Typer.unitSuffix)))

/-- The session in which a definition has the name of the next unit. -/
def Work.naming (k : Work) (id : Nat) (owner : String) : Work :=
  { k with session := { k.session with
      counter := k.nextNumber (owner ++ Typer.unitSuffix)
      definitions := k.session.definitions.modify id fun d =>
        { d with unit := some (k.nextUnit owner) } } }

@[simp] theorem Work.units_naming (k : Work) (id : Nat) (owner : String) :
    (k.naming id owner).units = k.units := rfl

namespace Typer

/-- A new unit takes a number, and its definition takes its name. -/
theorem extend_run (id : Nat) (d : MacroDefinition) (k : Work) :
    (extend id d).run k =
      (((Extension.ofSpec (k.nextUnit d.owner) d.spec d.span).expandInline
        k.session.inlineEnv).map fun n => (k.nextUnit d.owner, n), k.naming id d.owner) := by
  let unit := Extension.ofSpec (k.nextUnit d.owner) d.spec d.span
  have hfresh (base : String) : (SessionM.freshName base).run k =
      (.ok (k.freshName base).1, (k.freshName base).2) := rfl
  have htransform (n : Node) (k : Work) : (SessionM.transform n).run k =
      (n.expandInline k.session.inlineEnv, k) := rfl
  have hnamed : (extend id d).run k =
      (SessionM.transform unit >>= fun n => return (k.nextUnit d.owner, n)).run
        (k.naming id d.owner) := by
    simp only [extend, run_bind_apply, hfresh, run_get_apply, SessionM.modifySession_run]
    rfl
  have hinline : unit.expandInline (k.naming id d.owner).session.inlineEnv =
      unit.expandInline k.session.inlineEnv := rfl
  rw [hnamed, run_bind_apply, htransform, hinline]
  cases unit.expandInline k.session.inlineEnv with
  | ok n => rfl
  | error e => rfl

/-- A macro is registered on an owner that exists. -/
theorem registerMacro_run (d : MacroDefinition) (unit : String) (loaded : LoadedUnit)
    (k : Work) :
    (registerMacro d unit loaded).run k = match k.session.types.get? d.owner with
      | none => (.error (.report "macro" d.source (.undefinedName d.owner "macro owner") d.span), k)
      | some owner => (.ok (), { k with session := { k.session with
          types := k.session.types.modify d.owner (withMacro d.spec unit loaded)
          warnings := k.session.warnings ++ if owner.descriptor.isNone then
            [.report "macro" d.source (.sessionOnly d.owner d.spec.name) d.span] else [] } }) := by
  simp only [registerMacro, run_bind_apply, run_get_apply]
  cases k.session.types.get? d.owner with
  | none => rfl
  | some owner =>
    by_cases hd : owner.descriptor.isNone
    · simp [hd, run_bind_apply]
    · simp [hd]

/-- Registering a macro changes no definition. -/
theorem definitions_registerMacro (d : MacroDefinition) (unit : String) (loaded : LoadedUnit)
    (k : Work) :
    ((registerMacro d unit loaded).run k).2.session.definitions = k.session.definitions := by
  rw [registerMacro_run]
  split <;> rfl

/-- A macro is on its owner once it is registered. -/
theorem get?_registerMacro {d : MacroDefinition} {t : OwnerType} {k : Work} (unit : String)
    (loaded : LoadedUnit) (h : k.session.types.get? d.owner = some t) :
    ((registerMacro d unit loaded).run k).2.session.types.get? d.owner =
      some (withMacro d.spec unit loaded t) := by
  rw [registerMacro_run, h]
  exact TypeRegistry.get?_modify_self h _

/-- Writing artifacts changes files. -/
theorem persist_run (files : Artifacts) (k : Work) :
    (persist files).run k = match k.session.settings.destination with
      | none => (.ok (), k)
      | some root => (((files.write root).run k.world.files).1.map fun _ => (),
          { k with world := { k.world with files := ((files.write root).run k.world.files).2 } }) := by
  have hfiles {α : Type} (body : FilesM α) : (SessionM.onFiles body).run k =
      ((body.run k.world.files).1,
        { k with world := { k.world with files := (body.run k.world.files).2 } }) := rfl
  simp only [persist, run_bind_apply, run_get_apply]
  cases k.session.settings.destination with
  | none => rfl
  | some root =>
    simp only [run_bind_apply, hfiles]
    split <;> simp_all [Except.map]

/-- Writing artifacts leaves the session itself alone. -/
theorem session_persist (files : Artifacts) (k : Work) :
    ((persist files).run k).2.session = k.session := by
  rw [persist_run]
  split <;> rfl

/-- A computation inside a build goes on with its result, or ends with its failure. -/
theorem run_bind {α β : Type} (x : ExceptT Diagnostic TypeM α)
    (f : α → ExceptT Diagnostic TypeM β) (t : Typing) :
    (x >>= f).run t = match x.run t with
      | .ok (.ok a, s) => (f a).run s
      | .ok (.error e, s) => .ok (.error e, s)
      | .error s => .error s := by
  show (x.run >>= ExceptT.bindCont f) t = _
  rw [TypeM.bind_apply]
  rcases x.run t with s | ⟨e | a, s⟩
  · rfl
  · rfl
  · rfl

/-- A step of the session inside a build goes on with its result, or ends with its failure. -/
theorem step_bind {α β : Type} (body : SessionM α) (f : α → ExceptT Diagnostic TypeM β)
    (t : Typing) : (step body >>= f).run t = match body.run t.work with
      | (.ok a, work) => (f a).run { t with work }
      | (.error e, work) => .ok (.error e, { t with work }) := by
  have hstep : (step body).run t =
      .ok ((body.run t.work).1, { t with work := (body.run t.work).2 }) :=
    TypeM.attempt_apply body t
  rw [run_bind, hstep]
  rcases body.run t.work with ⟨e | a, k⟩
  · rfl
  · rfl

/-- A step of typing inside a build. -/
theorem lift_bind {α β : Type} (x : TypeM α) (f : α → ExceptT Diagnostic TypeM β) (t : Typing) :
    (ExceptT.lift x >>= f).run t = (x >>= fun a => (f a).run) t := by
  show ((Except.ok <$> x) >>= ExceptT.bindCont f) t = _
  rw [map_eq_pure_bind, bind_assoc]
  rfl

/-- A unit is loaded, and its macro is registered. -/
theorem publish_run (id : Nat) (d : MacroDefinition) (unit : String) (files : Artifacts)
    (t : Typing) :
    (publish id d unit files).run t =
      match (SessionM.loadUnit unit files).run (t.work.noting id .loading) with
      | (.ok u, k) => TypeM.attempt (registerMacro d unit u)
        { t with work := k.noting id .registering }
      | (.error e, k) => .ok (.error e, { t with work := k }) := by
  have hnote : (publish id d unit files).run t = (do
      let loaded ← step (SessionM.loadUnit unit files)
      ExceptT.lift (transition id .registering)
      step (registerMacro d unit loaded) : ExceptT Diagnostic TypeM Unit).run
        { t with work := t.work.noting id .loading } := by
    rw [publish]
    exact lift_bind _ _ _
  rw [hnote, step_bind]
  rcases (SessionM.loadUnit unit files).run (t.work.noting id .loading) with ⟨e | u, k⟩
  · rfl
  · exact lift_bind _ _ _

/-- The macro of a unit that cannot be loaded is not registered.  Otherwise the unit is one of
    those that the session sees. -/
theorem publish_cases (id : Nat) (d : MacroDefinition) (unit : String) (files : Artifacts)
    (t : Typing) :
    let k := t.work.noting id .loading
    (∃ e, (publish id d unit files).run t = .ok (.error e, { t with work := k })) ∨
    ∃ u units, k.accepts = true ∧ k.units.load unit files = .ok (u, units) ∧
      (k.withUnits units).units.get? unit = some u ∧
      (SessionM.loadUnit unit files).run k = (.ok u, k.withUnits units) ∧
      (publish id d unit files).run t = TypeM.attempt (registerMacro d unit u)
        { t with work := (k.withUnits units).noting id .registering } := by
  intro k
  rcases SessionM.loadUnit_cases unit files k with ⟨e, h⟩ | ⟨u, units, ha, hl, hu, h⟩
  · exact .inl ⟨e, by rw [publish_run, h]⟩
  · exact .inr ⟨u, units, ha, hl, hu, h, by rw [publish_run, h]⟩

/-- A build that fails is noted and reported where the macro is defined. -/
theorem conclude_error (id : Nat) (d : MacroDefinition) (e : Diagnostic) (t : Typing) :
    let e' := buildFailure d ((t.work.session.definition? id).bind MacroDefinition.unit) e
    conclude id d (.error e) t = .ok (.error e', { t with work := { t.work with
      session := t.work.session.modifyDefinition id fun d =>
        { d with state := .failed, failure := some e' } } }) :=
  rfl

/-- The steps of a build are taken and their outcome is noted. -/
theorem buildDefinition_apply (typed : Scope → Node → TypeM (Node × TypeRef)) (id : Nat)
    (d : MacroDefinition) (t : Typing) :
    buildDefinition typed id d t =
      match (buildSteps typed id d).run { t with work := t.work.noting id .extending } with
      | .ok (r, s) => conclude id d r s
      | .error s => .error s := by
  show (transition id .extending >>= fun _ => (buildSteps typed id d).run >>= conclude id d) t = _
  have hnote : transition id .extending t =
      .ok ((), { t with work := t.work.noting id .extending }) := rfl
  rw [TypeM.bind_apply, hnote]
  show ((buildSteps typed id d).run >>= conclude id d)
    { t with work := t.work.noting id .extending } = _
  rw [TypeM.bind_apply]
  rcases (buildSteps typed id d).run { t with work := t.work.noting id .extending } with s | ⟨r, s⟩
  · rfl
  · rfl

/-- A definition that nobody has begun to build is built. -/
theorem require_unresolved {id : Nat} {d : MacroDefinition} {t : Typing}
    (hd : t.work.session.definition? id = some d) (hs : d.state = .unresolved) :
    require 0 id t = .error t ∧
      ∀ n, require (n + 1) id t = buildDefinition (within (require n) expansionLimit) id d t := by
  constructor
  · simp only [require, TypeM.bind_apply, TypeM.session_apply, hd, hs, TypeM.cutOff]
  · intro n
    rw [require]
    simp only [TypeM.bind_apply, TypeM.session_apply, hd, hs]

/-- A definition that is built, was built before or does not exist needs no build, and
    how deep builds may nest makes no difference.  Any other one is built. -/
theorem require_cases (id : Nat) (t : Typing) :
    (∃ r, ∀ n, require n id t = .ok (r, t)) ∨
    ∃ d, t.work.session.definition? id = some d ∧ d.state = .unresolved ∧
      require 0 id t = .error t ∧
      ∀ n, require (n + 1) id t = buildDefinition (within (require n) expansionLimit) id d t := by
  cases hd : t.work.session.definition? id with
  | none =>
    refine .inl ⟨.error (.internal "macro" t.work.session.source
      ("unknown macro definition #" ++ toString id) Span.zero), fun n => ?_⟩
    unfold require
    simp only [TypeM.bind_apply, TypeM.session_apply, hd, TypeM.pure_apply]
  | some d =>
    cases hs : d.state
    case unresolved =>
      exact .inr ⟨d, rfl, hs, require_unresolved hd hs⟩
    case resolved =>
      refine .inl ⟨.ok (), fun n => ?_⟩
      unfold require
      simp only [TypeM.bind_apply, TypeM.session_apply, hd, hs, TypeM.pure_apply]
    case failed =>
      refine .inl ⟨.error (d.failure.getD (reentrant d)), fun n => ?_⟩
      unfold require
      simp only [TypeM.bind_apply, TypeM.session_apply, hd, hs, TypeM.pure_apply]
    all_goals
      refine .inl ⟨.error (reentrant d), fun n => ?_⟩
      unfold require
      simp only [TypeM.bind_apply, TypeM.session_apply, hd, hs, TypeM.pure_apply]

end Typer

end Quasiquote
