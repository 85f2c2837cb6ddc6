import Quasiquote.Proofs.Session.Leftovers

namespace Quasiquote

/-!
# Moves — what a session does and what it relies on

A session that compiles makes moves.  Each says under which conditions it is made: a class
that lasts is opened after its descriptor has been read, only the unit of a definition that is
being built is loaded and registered, and a file is written for it where there was none.

* `Work.Builds`, `Work.Move`, `Work.Moves` — moves and sequences of them;
* `Work.Move.reachable` — moves are made of steps;
* `Typer.moves_require`, `Typer.moves_inferWithin` — building and typing make moves only;
* `Work.reached_cases` — so does compiling, until descriptors are written at the end.
-/

namespace Work

/-- Whether a definition is being built, with a unit of a name. -/
def Builds (k : Work) (id : Nat) (unit : String) : Prop :=
  ∃ d, k.session.definition? id = some d ∧ d.unit = some unit ∧ d.state.isBuilding = true

/-- Whether no directory that units are loaded from has a file of a unit. -/
def NoFile (k : Work) (unit : String) : Prop :=
  ∀ root ∈ k.session.settings.classpath,
    k.world.files.text? (Path.ofText (unitPath root unit)) = none

/-- One move of a session. -/
inductive Move (k : Work) : Work → Prop
  | meet (spec : MacroSpec) (owner : String) (span : Span) :
    Move k { k with session := { k.session with definitions :=
      k.session.definitions ++ [{ spec, owner, span, source := k.session.source }] } }
  | declare (owner : String) (m : Method) :
    Move k { k with session := { k.session with
      types := k.session.types.modify owner (·.define m) } }
  | importType (name : String) : Move k ((SessionM.importType name).run k).2
  | openClass (name : String) (superclass : Option String) : Move k (k.opened name superclass)
  | expand (unit : LoadedUnit) (call : Node) :
    Move k ⟨{ k.session with scopes := (k.expanded unit call).scopes },
      { k.world with printed := k.world.printed ++ (k.expanded unit call).output }⟩
  | record (e : ExpansionStep) (h : e.depth < Typer.expansionLimit) :
    Move k { k with session := { k.session with expansions := k.session.expansions ++ [e] } }
  -- the build of a definition
  | begin {id : Nat} {d : MacroDefinition} (hd : k.session.definition? id = some d)
      (hs : d.state = .unresolved) : Move k ((k.noting id .extending).naming id d.owner)
  | note {id : Nat} {unit : String} (h : k.Builds id unit) {state : BuildState}
      (hstate : state.isBuilding = true) : Move k (k.noting id state)
  | scopes (scopes : Scopes Node) : Move k { k with session := { k.session with scopes } }
  | load {id : Nat} {unit text : String} (h : k.Builds id unit) {files : Artifacts}
      (hfiles : files.entries = [(unit, text)]) : Move k ((SessionM.loadUnit unit files).run k).2
  | register {id : Nat} {unit : String} (h : k.Builds id unit) (d : MacroDefinition)
      {loaded : LoadedUnit} (hloaded : k.units.get? unit = some loaded) :
    Move k ((Typer.registerMacro d unit loaded).run k).2
  | resolve {id : Nat} {unit : String} (h : k.Builds id unit)
      (hroot : k.session.settings.destination = none) : Move k (k.noting id .resolved)
  /-- The file of the unit is written, and the definition is resolved. -/
  | write {id : Nat} {unit root text : String} (h : k.Builds id unit)
      (hroot : k.session.settings.destination = some root) (hnew : k.NoFile unit)
      {u : LoadedUnit} (hread : Namespace.decode unit text = .ok u) {files : Files}
      (hwritten : files.text? (Path.ofText (unitPath root unit)) = some text)
      (hsame : ∀ q, q ≠ Path.ofText (unitPath root unit) →
        files.text? q = k.world.files.text? q) :
    Move k (({ k with world := { k.world with files } } : Work).noting id .resolved)
  /-- The file of a unit cannot be written, but directories are made. -/
  | unwritten {files : Files} (hsame : ∀ q, files.text? q = k.world.files.text? q) :
    Move k { k with world := { k.world with files } }
  | fail {id : Nat} {unit : String} (h : k.Builds id unit) (e : Diagnostic) :
    Move k { k with session := k.session.modifyDefinition id fun d =>
      { d with state := .failed, failure := some e } }

/-- A sequence of moves. -/
def Moves : Work → Work → Prop := Relation.ReflTransGen Move

/-- Moves are made of steps, and of changes of files. -/
theorem Move.reachable {k k' : Work} (h : k.Move k') (hk : k.Reachable) : k'.Reachable := by
  cases h
  case meet spec owner span => exact hk.step (.meet k spec owner span)
  case declare owner m => exact hk.step (.declare k owner m)
  case importType name => exact hk.step (.importType k name)
  case openClass name superclass =>
    exact opened_of name superclass hk (hk.step (.importType k name)) fun k persistent hk =>
      hk.step (.openType k name superclass persistent)
  case expand unit call => exact hk.step (.expand k unit call)
  case record e h => exact hk.step (.record k e h)
  case begin id d hd hs =>
    have hextend := (hk.step (.transition k id .extending (by decide))).step (.extend _ id d)
    rwa [Typer.extend_run] at hextend
  case note id unit h state hstate =>
    refine hk.step (.transition k id state ?_)
    rintro rfl
    cases hstate
  case scopes => exact hk.aside _ rfl rfl rfl
  case load unit _ _ files _ => exact hk.step (.load k unit files)
  case register unit _ d loaded hloaded => exact hk.step (.registerMacro k d unit loaded hloaded)
  case resolve id _ _ _ => exact hk.step (.transition k id .resolved (by decide))
  case write id _ _ _ _ _ _ _ _ files _ _ =>
    exact (hk.withFiles files).step (.transition _ id .resolved (by decide))
  case unwritten files _ => exact hk.withFiles files
  case fail id _ _ e => exact hk.step (.fail k id e)

theorem Moves.reachable {k k' : Work} (h : k.Moves k') (hk : k.Reachable) : k'.Reachable := by
  induction h with
  | refl => exact hk
  | tail _ hmove ih => exact hmove.reachable ih

/-! ### What moves change -/

theorem Move.settings {k k' : Work} (h : k.Move k') :
    k'.session.settings = k.session.settings := by
  have himport (name : String) :
      ((SessionM.importType name).run k).2.session.settings = k.session.settings := by
    obtain ⟨types, units, h⟩ := SessionM.keeps_importType name k
    rw [h, settings_withUnits]
  cases h
  case importType name => exact himport name
  case openClass name superclass =>
    exact opened_of (P := fun k' => k'.session.settings = _) name superclass rfl (himport name)
      fun _ _ h => h
  case load unit _ _ files _ =>
    obtain ⟨units, h⟩ := SessionM.keeps_loadUnit unit files k
    rw [h, settings_withUnits]
  case register =>
    rw [Typer.registerMacro_run]
    split <;> rfl
  all_goals rfl

theorem Moves.settings {k k' : Work} (h : k.Moves k') :
    k'.session.settings = k.session.settings := by
  induction h with
  | refl => rfl
  | tail _ hmove ih => exact hmove.settings.trans ih

/-- Whether a directory has a file of a unit from which it can be read. -/
def HasUnit (k : Work) (root unit : String) : Prop :=
  ∃ text u, k.world.files.text? (Path.ofText (unitPath root unit)) = some text ∧
    Namespace.decode unit text = .ok u

/-- A move changes no text, or it writes the file of the unit of a definition, which is resolved
    then, where units are loaded from no such file. -/
theorem Move.files_cases {k k' : Work} (h : k.Move k') :
    (∀ q, k'.world.files.text? q = k.world.files.text? q) ∨
    ∃ id unit root text, k.Builds id unit ∧ k.session.settings.destination = some root ∧
      k.NoFile unit ∧ (∃ u, Namespace.decode unit text = .ok u) ∧
      k'.world.files.text? (Path.ofText (unitPath root unit)) = some text ∧
      ∀ q, q ≠ Path.ofText (unitPath root unit) →
        k'.world.files.text? q = k.world.files.text? q := by
  have himport (name : String) (q : Path) :
      ((SessionM.importType name).run k).2.world.files.text? q = k.world.files.text? q := by
    obtain ⟨types, units, h⟩ := SessionM.keeps_importType name k
    rw [h, files_withUnits]
  cases h
  case importType name => exact .inl (himport name)
  case openClass name superclass =>
    exact .inl (opened_of (P := fun k' => ∀ q, k'.world.files.text? q = k.world.files.text? q) name superclass
      (fun _ => rfl) (himport name) fun _ _ h => h)
  case load unit _ _ files _ =>
    obtain ⟨units, h⟩ := SessionM.keeps_loadUnit unit files k
    exact .inl fun q => by rw [h, files_withUnits]
  case register =>
    rw [Typer.registerMacro_run]
    split <;> exact .inl fun q => rfl
  case write id unit root text h hroot hnew u hread files hwritten hsame =>
    exact .inr ⟨id, unit, root, text, h, hroot, hnew, ⟨u, hread⟩, hwritten, hsame⟩
  case unwritten hsame => exact .inl hsame
  all_goals exact .inl fun q => rfl

/-- A move leaves all definitions alone, or it meets one, changes one that is being built, or
    begins to build one.  A definition is resolved only when the file of its unit is there. -/
theorem Move.definitions_cases {k k' : Work} (h : k.Move k') :
    (k'.session.counter = k.session.counter ∧
      (k'.session.definitions = k.session.definitions ∨
      (∃ d : MacroDefinition, d.unit = none ∧ d.state = .unresolved ∧
        k'.session.definitions = k.session.definitions ++ [d]) ∨
      ∃ id unit f, k.Builds id unit ∧
        k'.session.definitions = k.session.definitions.modify id f ∧
        ∀ d : MacroDefinition, (f d).unit = d.unit ∧ (f d).owner = d.owner ∧
          (f d).state ≠ .unresolved ∧ ((f d).state = .resolved →
            ∀ root, k.session.settings.destination = some root → k'.HasUnit root unit))) ∨
    ∃ id d, k.session.definition? id = some d ∧ d.state = .unresolved ∧
      k' = (k.noting id .extending).naming id d.owner := by
  have himport (name : String) :
      ((SessionM.importType name).run k).2.session.counter = k.session.counter ∧
      ((SessionM.importType name).run k).2.session.definitions = k.session.definitions := by
    obtain ⟨types, units, h⟩ := SessionM.keeps_importType name k
    rw [h]
    exact ⟨counter_withUnits _ _, definitions_withUnits _ _⟩
  cases h
  case meet => exact .inl ⟨rfl, .inr (.inl ⟨_, rfl, rfl, rfl⟩)⟩
  case importType name => exact .inl ⟨(himport name).1, .inl (himport name).2⟩
  case openClass name superclass =>
    have hsame := opened_of (P := fun k' => k'.session.counter = k.session.counter ∧
      k'.session.definitions = k.session.definitions) name superclass ⟨rfl, rfl⟩ (himport name)
      fun _ _ h => h
    exact .inl ⟨hsame.1, .inl hsame.2⟩
  case begin id d hd hs => exact .inr ⟨id, d, hd, hs, rfl⟩
  case note id unit h state hstate =>
    refine .inl ⟨rfl, .inr (.inr ⟨id, unit, _, h, rfl, fun d => ⟨rfl, rfl, ?_, ?_⟩⟩)⟩
    · rintro rfl
      cases hstate
    · rintro rfl
      cases hstate
  case load unit _ _ files _ =>
    obtain ⟨units, h⟩ := SessionM.keeps_loadUnit unit files k
    rw [h]
    exact .inl ⟨counter_withUnits _ _, .inl (definitions_withUnits _ _)⟩
  case register =>
    rw [Typer.registerMacro_run]
    split <;> exact .inl ⟨rfl, .inl rfl⟩
  case resolve id unit h hnone =>
    refine .inl ⟨rfl, .inr (.inr ⟨id, unit, _, h, rfl, fun d => ⟨rfl, rfl, nofun, ?_⟩⟩)⟩
    rintro - root hroot
    rw [hnone] at hroot
    cases hroot
  case write id unit root text h hroot hnew u hread files hwritten hsame =>
    refine .inl ⟨rfl, .inr (.inr ⟨id, unit, _, h, rfl, fun d => ⟨rfl, rfl, nofun, ?_⟩⟩)⟩
    rintro - root' hroot'
    obtain rfl : root' = root := Option.some.inj (hroot'.symm.trans hroot)
    exact ⟨text, u, hwritten, hread⟩
  case fail id unit h e =>
    exact .inl ⟨rfl, .inr (.inr ⟨id, unit, _, h, rfl, fun d => ⟨rfl, rfl, nofun, nofun⟩⟩)⟩
  all_goals exact .inl ⟨rfl, .inl rfl⟩

/-! ### Definitions that are being built -/

namespace Builds

variable {k k' : Work} {id : Nat} {unit : String}

theorem of_definitions (h : k.Builds id unit)
    (hsame : k'.session.definitions = k.session.definitions) : k'.Builds id unit := by
  obtain ⟨d, hd, hrest⟩ := h
  exact ⟨d, by rwa [Session.definition?, hsame], hrest⟩

theorem noting (h : k.Builds id unit) {state : BuildState} (hstate : state.isBuilding = true) :
    (k.noting id state).Builds id unit := by
  obtain ⟨d, hd, hunit, -⟩ := h
  exact ⟨{ d with state }, Session.definition?_modifyDefinition hd, hunit, hstate⟩

theorem registerMacro (h : k.Builds id unit) (d : MacroDefinition) (loaded : LoadedUnit) :
    ((Typer.registerMacro d unit loaded).run k).2.Builds id unit :=
  h.of_definitions (Typer.definitions_registerMacro d unit loaded k)

end Builds

/-- The build of definition `id` in a session that has come from `k₀`, before the file of its
    unit is written. -/
structure Unwritten (k₀ : Work) (id : Nat) (unit : String) (k : Work) : Prop where
  moves : k₀.Moves k
  builds : k.Builds id unit
  noFile : k.accepts = true → k.NoFile unit

namespace Unwritten

variable {k₀ k k' : Work} {id : Nat} {unit : String}

theorem noting (h : Unwritten k₀ id unit k) {state : BuildState}
    (hstate : state.isBuilding = true) : Unwritten k₀ id unit (k.noting id state) :=
  ⟨h.moves.tail (.note h.builds hstate), h.builds.noting hstate, h.noFile⟩

theorem fails (h : Unwritten k₀ id unit k) (e : Diagnostic) :
    k₀.Moves { k with session := k.session.modifyDefinition id fun d =>
      { d with state := .failed, failure := some e } } :=
  h.moves.tail (.fail h.builds e)

/-- The unit is loaded, from a file that can be read, or it is not. -/
theorem loadUnit (h : Unwritten k₀ id unit k) {files : Artifacts} {text : String}
    (hfiles : files.entries = [(unit, text)]) :
    Unwritten k₀ id unit ((SessionM.loadUnit unit files).run k).2 ∧
    ∀ u, ((SessionM.loadUnit unit files).run k).1 = .ok u →
      ((SessionM.loadUnit unit files).run k).2.units.get? unit = some u ∧
      ((SessionM.loadUnit unit files).run k).2.accepts = true ∧
      ∃ v, Namespace.decode unit text = .ok v := by
  have hmoves := h.moves.tail (.load h.builds hfiles)
  rcases SessionM.loadUnit_cases unit files k with ⟨e, hrun⟩ | ⟨u, units, ha, hload, hu, hrun⟩
  · rw [hrun]
    exact ⟨h, nofun⟩
  · -- what was loaded came from the one file, which could be read
    rw [hrun] at hmoves ⊢
    refine ⟨⟨hmoves, h.builds.of_definitions (definitions_withUnits _ _), fun _ => ?_⟩, fun v hv => ?_⟩
    · simpa [NoFile] using h.noFile ha
    · cases hv
      obtain ⟨vs, hvs, -⟩ := Namespace.load_ok hload
      rw [hfiles, Namespace.decodeAll] at hvs
      refine ⟨hu, by rwa [accepts_withUnits], ?_⟩
      cases hv : Namespace.decode unit text with
      | error e =>
        rw [hv] at hvs
        cases hvs
      | ok v => exact ⟨v, rfl⟩

theorem registerMacro (h : Unwritten k₀ id unit k) (d : MacroDefinition) {loaded : LoadedUnit}
    (hloaded : k.units.get? unit = some loaded) :
    Unwritten k₀ id unit ((Typer.registerMacro d unit loaded).run k).2 ∧
    ((Typer.registerMacro d unit loaded).run k).2.accepts = k.accepts := by
  have hmoves := h.moves.tail (.register h.builds d hloaded)
  have hbuilds := h.builds.registerMacro d loaded
  rw [Typer.registerMacro_run] at hmoves hbuilds ⊢
  revert hmoves hbuilds
  split
  · exact fun hmoves hbuilds => ⟨⟨hmoves, hbuilds, h.noFile⟩, rfl⟩
  · exact fun hmoves hbuilds => ⟨⟨hmoves, hbuilds, h.noFile⟩, rfl⟩

/-- The file of the unit is written, and the definition is resolved, or it fails. -/
theorem persist (h : Unwritten k₀ id unit k) (ha : k.accepts = true) {files : Artifacts}
    {text : String} (hfiles : files.entries = [(unit, text)]) {u : LoadedUnit}
    (hread : Namespace.decode unit text = .ok u) :
    (((Typer.persist files).run k).1 = .ok () →
      k₀.Moves (((Typer.persist files).run k).2.noting id .resolved)) ∧
    ∀ e, ((Typer.persist files).run k).1 = .error e →
      Unwritten k₀ id unit ((Typer.persist files).run k).2 := by
  rw [Typer.persist_run]
  cases hroot : k.session.settings.destination with
  | none => exact ⟨fun _ => h.moves.tail (.resolve h.builds hroot), nofun⟩
  | some root =>
    dsimp only
    rcases Artifacts.write_cases hfiles root k.world.files with
      ⟨path, reason, herror, hsame⟩ | ⟨⟨paths, hok⟩, hsame⟩
    · refine ⟨fun hok => ?_, fun e _ => ⟨h.moves.tail (.unwritten hsame), h.builds, fun _ => ?_⟩⟩
      · rw [herror] at hok
        cases hok
      · exact fun root' hroot' => (hsame _).trans (h.noFile ha root' hroot')
    · refine ⟨fun _ => ?_, fun e herror => ?_⟩
      · exact h.moves.tail (.write h.builds hroot (h.noFile ha) hread
          (Artifacts.text?_write hfiles hok) hsame)
      · rw [hok] at herror
        cases herror

end Unwritten

end Work

namespace Typer

open Work TypeM

/-! ### Computations make moves -/

/-- What typing does step by step are moves. -/
def movesWalk (k₀ : Work) : Congruence where
  Rel x _ := Preserves k₀.Moves x
  pure _ _ ht := ht
  bind hx hf := hx.bind hf
  get _ ht := ht
  scratch f hf _ t ht := (hf t).symm ▸ ht
  register spec owner span t ht := ht.tail (.meet spec owner span)
  declare scope m t ht := by
    unfold defineMethod
    cases scope.selfType.owner with
    | none => exact ht
    | some owner => exact ht.tail (.declare owner m)
  importUnknown name t ht := by
    obtain ⟨r, work, hrun, rfl | ⟨-, rfl⟩⟩ := exists_importUnknown name t
    · rw [hrun]; exact ht
    · rw [hrun]; exact ht.tail (.importType name)
  openClass name superclass s t ht := by
    obtain ⟨es, hrun⟩ := openClass_apply name superclass s t.work
    rw [hrun t rfl]
    exact ht.tail (.openClass name superclass)
  expandCall unit call t ht := by
    rw [TypeM.expandCall_apply]
    exact ht.tail (.expand unit call)
  record e he t ht := ht.tail (.record e he)

theorem moves_within {k₀ : Work} {build : Nat → TypeM (Except Diagnostic Unit)}
    (hbuild : ∀ id, Preserves k₀.Moves (build id)) (left : Nat) (scope : Scope) (n : Node) :
    Preserves k₀.Moves (within build left scope n) := by
  have hrel : (movesWalk k₀).Rel (within build left scope n) (within build left scope n) :=
    TypeM.Congruence.rel_within (C := movesWalk k₀) hbuild left scope n
  exact hrel

section Build

variable {k₀ : Work} {id : Nat} {unit : String} {X : Work → Prop}

/-- Loading and registering are moves. -/
theorem moves_publish (d : MacroDefinition) {files : Artifacts} {text : String}
    (hfiles : files.entries = [(unit, text)]) :
    Holds (Unwritten k₀ id unit) (publish id d unit files)
      (fun _ k => (Unwritten k₀ id unit k ∧ k.accepts = true) ∧
        ∃ u, Namespace.decode unit text = .ok u)
      (fun _ => Unwritten k₀ id unit) X := by
  refine .bind (Q := fun _ => Unwritten k₀ id unit) (.note id .loading fun k hk => hk.noting rfl)
    fun _ => ?_
  refine .bind (Q := fun u k => (Unwritten k₀ id unit k ∧ k.units.get? unit = some u ∧
      k.accepts = true) ∧ ∃ v, Namespace.decode unit text = .ok v)
    (.step (fun k u hk hok => ?_) fun k e hk _ => (hk.loadUnit hfiles).1) fun u => ?_
  · obtain ⟨hunwritten, hloaded⟩ := hk.loadUnit hfiles
    obtain ⟨hu, ha, hread⟩ := hloaded u hok
    exact ⟨⟨hunwritten, hu, ha⟩, hread⟩
  · refine .assuming fun hread => .bind (Q := fun _ k => Unwritten k₀ id unit k ∧
      k.units.get? unit = some u ∧ k.accepts = true) (.note id .registering fun k hk =>
        ⟨hk.1.noting rfl, hk.2⟩) fun _ => .step (fun k _ hk _ => ?_) fun k e hk _ => ?_
    · obtain ⟨hunwritten, ha⟩ := hk.1.registerMacro d hk.2.1
      exact ⟨⟨hunwritten, ha.trans hk.2.2⟩, hread⟩
    · exact (hk.1.registerMacro d hk.2.1).1

/-- The steps of a build are moves.  Before the file of the unit is written, there is none. -/
theorem moves_buildSteps {d : MacroDefinition} (h₀ : k₀.Reachable)
    {typed : Scope → Node → TypeM (Node × TypeRef)} (hclasses : KeepsClasses typed)
    (htyped : ∀ scope n, Preserves k₀.Moves (typed scope n))
    (hunderway : ∀ k id n unit, Numbered unit n →
      ∀ scope tree, Preserves (Underway k id n unit) (typed scope tree))
    {k : Work} (hk : k₀.Moves k) (hd : k.session.definition? id = some d)
    (hs : d.state = .unresolved) :
    Holds (· = k.noting id .extending) (buildSteps typed id d)
      (fun _ k => k₀.Moves (k.noting id .resolved))
      (fun _ k => ∀ e, k₀.Moves { k with session := k.session.modifyDefinition id fun d =>
        { d with state := .failed, failure := some e } })
      k₀.Moves := by
  let start := k.noting id .extending
  let n := start.nextNumber (d.owner ++ unitSuffix)
  let unit := start.nextUnit d.owner
  -- the name is free of files, which nothing but the end of this build changes
  have hunwritten {k : Work} (h : Underway start id n unit k ∧ k₀.Moves k) :
      Unwritten k₀ id unit k := by
    exact ⟨h.2, h.1.building, fun ha => Namespace.fileOf_eq_none_iff.1 (h.1.noFile ha)⟩
  refine .bind (.prepare (I := fun k => Underway start id n unit k ∧ k₀.Moves k) (U := (· = unit))
    hclasses id d ?_ (fun k' hk' => ⟨hk'.1.noting rfl, hk'.2.tail (.note hk'.1.building rfl)⟩)
    (fun scope tree t ht => ⟨?_, htyped scope tree t ht.2⟩) (fun k' scopes hk' => ?_)
    (fun e k' hk' e' => (hunwritten hk').fails e') fun k' hk' => hk'.2) fun ⟨unit', files⟩ => ?_
  · rintro _ rfl
    have hextending : start.session.definition? id = some { d with state := .extending } :=
      Session.definition?_modifyDefinition hd
    have hreachable : start.Reachable :=
      (hk.reachable h₀).step (.transition k id .extending (by decide))
    exact ⟨⟨underway_naming hreachable hextending rfl d, hk.tail (.begin hd hs)⟩, rfl⟩
  · exact hunderway start id n unit (start.nextUnit_numbered d.owner) scope tree t ht.1
  · refine ⟨hk'.1.of_session (hk'.1.reachable.aside _ rfl rfl rfl) rfl (Nat.le_refl _) rfl rfl
      fun h => h, hk'.2.tail (.scopes scopes)⟩
  · -- the unit has been authored in one file, which is loaded, registered and written
    refine .assuming fun ⟨hunit, text, hfiles⟩ => ?_
    obtain rfl : unit' = unit := hunit
    refine .bind ((moves_publish d hfiles).weaken (fun _ => hunwritten) fun e k hk => hk.fails)
      fun _ => .assuming fun ⟨u, hread⟩ => ?_
    exact .step (fun k' _ hk' hok => (hk'.1.persist hk'.2 hfiles hread).1 hok)
      fun k' e hk' herror e' => ((hk'.1.persist hk'.2 hfiles hread).2 e herror).fails e'

/-- The build of a definition makes moves, cut off or not. -/
theorem moves_buildDefinition {d : MacroDefinition} (h₀ : k₀.Reachable)
    {typed : Scope → Node → TypeM (Node × TypeRef)} (hclasses : KeepsClasses typed)
    (htyped : ∀ scope n, Preserves k₀.Moves (typed scope n))
    (hunderway : ∀ k id n unit, Numbered unit n →
      ∀ scope tree, Preserves (Underway k id n unit) (typed scope tree))
    {t : Typing} (ht : k₀.Moves t.work) (hd : t.work.session.definition? id = some d)
    (hs : d.state = .unresolved) : k₀.Moves (last (buildDefinition typed id d t)).work := by
  have hrun := moves_buildSteps h₀ hclasses htyped hunderway ht hd hs
    { t with work := t.work.noting id .extending } rfl
  rw [buildDefinition_apply]
  revert hrun
  rcases (buildSteps typed id d).run { t with work := t.work.noting id .extending } with
    s | ⟨e | _, s⟩
  · exact fun h => h
  · exact fun h => h _
  · exact fun h => h

end Build

/-- Building makes moves, cut off or not. -/
theorem moves_require {k₀ : Work} (h₀ : k₀.Reachable) (n id : Nat) :
    Preserves k₀.Moves (require n id) := by
  induction n generalizing id with
  | zero =>
    intro t ht
    rcases require_cases id t with ⟨r, hr⟩ | ⟨d, -, -, hcut, -⟩
    · rw [hr]; exact ht
    · rw [hcut]; exact ht
  | succ n ih =>
    intro t ht
    rcases require_cases id t with ⟨r, hr⟩ | ⟨d, hd, hs, -, hbuild⟩
    · rw [hr]; exact ht
    · rw [hbuild]
      refine moves_buildDefinition h₀ (keepsClasses_within _ _) (moves_within ih _) ?_ ht hd hs
      exact fun k id m unit hunit scope tree => preserves_within (Underway.preserved k id m unit)
        (preserves_require hunit n) expansionLimit scope tree

/-- Typing makes moves, cut off or not. -/
theorem moves_inferWithin {k₀ : Work} (h₀ : k₀.Reachable) (n : Nat) (scope : Scope) (tree : Node) :
    Preserves k₀.Moves (inferWithin n scope tree) :=
  moves_within (moves_require h₀ n) expansionLimit scope tree

end Typer

namespace Work

/-- Compiling makes moves.  If it is not cut off, it writes descriptors at the end; a text that
    is no program writes none. -/
theorem reached_cases {k : Work} (hk : k.Reachable) (n : Nat) (source text : String) :
    ∃ k', (k.enter source).Moves k' ∧
      (k.reached n source text = k' ∨ k.reached n source text = k'.describing) := by
  rcases k.compileWithin_cases source text with ⟨d, hd⟩ | ⟨markers, scope, tree, hrun⟩
  · exact ⟨k.enter source, .refl, .inl (by rw [Work.reached, hd]; rfl)⟩
  · have henter : (k.enter source).Reachable := hk.aside _ rfl rfl rfl
    have hmoves := Typer.moves_inferWithin henter n scope tree { work := k.enter source } .refl
    rw [Work.reached, hrun]
    revert hmoves
    rcases Typer.inferWithin n scope tree { work := k.enter source } with t | ⟨p, t⟩
    · exact fun hmoves => ⟨_, hmoves, .inl rfl⟩
    · refine fun hmoves => ⟨_, hmoves, .inr ?_⟩
      exact t.work.snd_finish _

end Work

end Quasiquote
