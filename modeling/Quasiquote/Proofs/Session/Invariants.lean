import Quasiquote.Proofs.Session.Moves

namespace Quasiquote

/-!
# Invariants — what builds keep, and what a registration is worth

What every step of typing and of builds keeps, builds keep, however they nest.  A step may rely on
where it stands in its build: the unit is that of the definition, and the definition is resolved
only after its macro has been registered.

* `Work.BuildOf` — a definition that is being built, with its unit;
* `Typer.Invariant` — what each step has to keep, and what a registration establishes;
* `Typer.Invariant.preserves_require` — building keeps it, cut off or not.
-/

namespace Work

variable {k k' : Work} {id : Nat} {d : MacroDefinition} {unit : String}

/-- Whether the definition of a number defines what `d` does. -/
def Defines (k : Work) (id : Nat) (d : MacroDefinition) : Prop :=
  ∃ d', k.session.definition? id = some d' ∧ d'.spec = d.spec ∧ d'.owner = d.owner

theorem Defines.run (h : k.Defines id d) (hrun : k.Run k') : k'.Defines id d := by
  obtain ⟨d₁, hd₁, hspec, howner⟩ := h
  obtain ⟨d₂, hd₂, hspec', howner'⟩ := hrun.definition_stays hd₁
  exact ⟨d₂, hd₂, hspec'.trans hspec, howner'.trans howner⟩

/-- Whether the definition of a number, which defines what `d` does, is being built with a unit of
    a name. -/
def BuildOf (k : Work) (id : Nat) (d : MacroDefinition) (unit : String) : Prop :=
  ∃ d', k.session.definition? id = some d' ∧ d'.spec = d.spec ∧ d'.owner = d.owner ∧
    d'.unit = some unit ∧ d'.state.isBuilding = true

namespace BuildOf

theorem builds (h : k.BuildOf id d unit) : k.Builds id unit := by
  obtain ⟨d', hd', -, -, hunit, hbuilding⟩ := h
  exact ⟨d', hd', hunit, hbuilding⟩

theorem of_builds (hdefines : k.Defines id d) (hbuilds : k.Builds id unit) :
    k.BuildOf id d unit := by
  obtain ⟨d₁, hd₁, hspec, howner⟩ := hdefines
  obtain ⟨d₂, hd₂, hunit, hbuilding⟩ := hbuilds
  obtain rfl : d₁ = d₂ := Option.some.inj (hd₁.symm.trans hd₂)
  exact ⟨d₁, hd₁, hspec, howner, hunit, hbuilding⟩

theorem of_definitions (h : k.BuildOf id d unit)
    (hsame : k'.session.definitions = k.session.definitions) : k'.BuildOf id d unit := by
  obtain ⟨d', hd', hrest⟩ := h
  exact ⟨d', by rwa [Session.definition?, hsame], hrest⟩

theorem noting (h : k.BuildOf id d unit) {state : BuildState} (hstate : state.isBuilding = true) :
    (k.noting id state).BuildOf id d unit := by
  obtain ⟨d', hd', hspec, howner, hunit, -⟩ := h
  exact ⟨{ d' with state }, Session.definition?_modifyDefinition hd', hspec, howner, hunit, hstate⟩

theorem loadUnit (h : k.BuildOf id d unit) (name : String) (files : Artifacts) :
    ((SessionM.loadUnit name files).run k).2.BuildOf id d unit := by
  obtain ⟨units, hk⟩ := SessionM.keeps_loadUnit name files k
  rw [hk]
  exact h.of_definitions (definitions_withUnits _ _)

theorem registerMacro (h : k.BuildOf id d unit) (d' : MacroDefinition) (loaded : LoadedUnit) :
    ((Typer.registerMacro d' unit loaded).run k).2.BuildOf id d unit :=
  h.of_definitions (Typer.definitions_registerMacro d' unit loaded k)

theorem persist (h : k.BuildOf id d unit) (files : Artifacts) :
    ((Typer.persist files).run k).2.BuildOf id d unit :=
  h.of_definitions (by rw [Typer.session_persist])

end BuildOf

/-- The definitions of a session in which the build of one has begun. -/
theorem definitions_begin (k : Work) (id : Nat) (owner : String) :
    ((k.noting id .extending).naming id owner).session.definitions =
      k.session.definitions.modify id fun d =>
        { d with state := .extending, unit := some ((k.noting id .extending).nextUnit owner) } := by
  show (k.session.definitions.modify id _).modify id _ = _
  rw [List.modify_modify_eq]
  rfl

/-- A definition that nobody has begun to build gets its unit. -/
theorem buildOf_begin (hd : k.session.definition? id = some d) :
    ((k.noting id .extending).naming id d.owner).BuildOf id d
      ((k.noting id .extending).nextUnit d.owner) :=
  ⟨_, Session.definition?_modify_self (definitions_begin k id d.owner) hd, rfl, rfl, rfl, rfl⟩

/-- Beginning a build takes steps. -/
theorem run_begin (k : Work) (id : Nat) (d : MacroDefinition) :
    k.Run ((k.noting id .extending).naming id d.owner) := by
  have hextend := (Step.extend (k.noting id .extending) id d).run
  rw [Typer.extend_run] at hextend
  exact (Step.transition k id .extending (by decide)).run.trans hextend

end Work

namespace Typer

open TypeM Work

/-- Whether every step of typing and of builds keeps `I`.  A registration leads to `L` besides, and
    with that the definition may be resolved. -/
structure Invariant (I : Work → Prop) (L : MacroDefinition → String → Work → Prop) : Prop
    extends Preserved I where
  reachable {k : Work} (h : I k) : k.Reachable
  begin {k : Work} (h : I k) {id : Nat} {d : MacroDefinition}
      (hd : k.session.definition? id = some d) (hs : d.state = .unresolved) :
    I ((k.noting id .extending).naming id d.owner)
  note {k : Work} (h : I k) {id : Nat} {d : MacroDefinition} {unit : String}
      (hbuild : k.BuildOf id d unit) {state : BuildState} (hstate : state.isBuilding = true) :
    I (k.noting id state)
  scopes {k : Work} (h : I k) (scopes : Scopes Node) :
    I { k with session := { k.session with scopes } }
  load {k : Work} (h : I k) (unit : String) (files : Artifacts) :
    I ((SessionM.loadUnit unit files).run k).2
  register {k : Work} (h : I k) {id : Nat} {d : MacroDefinition} {unit : String}
      (hbuild : k.BuildOf id d unit) {loaded : LoadedUnit}
      (hloaded : k.units.get? unit = some loaded) :
    I ((registerMacro d unit loaded).run k).2 ∧
      (((registerMacro d unit loaded).run k).1 = .ok () →
        L d unit ((registerMacro d unit loaded).run k).2)
  persist {k : Work} (h : I k) (files : Artifacts) :
    I ((persist files).run k).2 ∧ ∀ d unit, L d unit k → L d unit ((persist files).run k).2
  resolve {k : Work} (h : I k) {id : Nat} {d : MacroDefinition} {unit : String}
      (hbuild : k.BuildOf id d unit) (hlisted : L d unit k) : I (k.noting id .resolved)
  fail {k : Work} (h : I k) {id : Nat} {d : MacroDefinition} {unit : String}
      (hbuild : k.BuildOf id d unit) (e : Diagnostic) :
    I { k with session := k.session.modifyDefinition id fun d =>
      { d with state := .failed, failure := some e } }

namespace Invariant

variable {I : Work → Prop} {L : MacroDefinition → String → Work → Prop} (h : Invariant I L)
  {id : Nat} {d : MacroDefinition}
include h

/-- Loading a unit and registering its macro. -/
theorem publish {unit : String} {files : Artifacts} {X : Work → Prop} :
    Holds (fun k => I k ∧ k.BuildOf id d unit) (Typer.publish id d unit files)
      (fun _ k => (I k ∧ k.BuildOf id d unit) ∧ L d unit k)
      (fun _ k => I k ∧ k.BuildOf id d unit) X := by
  refine .bind (Q := fun _ k => I k ∧ k.BuildOf id d unit)
    (.note id .loading fun k hk => ⟨h.note hk.1 hk.2 rfl, hk.2.noting rfl⟩) fun _ => ?_
  refine .bind (Q := fun u k => (I k ∧ k.BuildOf id d unit) ∧ k.units.get? unit = some u)
    (.step (fun k u hk hok => ⟨⟨h.load hk.1 unit files, hk.2.loadUnit unit files⟩, ?_⟩)
      fun k e hk _ => ⟨h.load hk.1 unit files, hk.2.loadUnit unit files⟩) fun u => ?_
  · rcases SessionM.loadUnit_cases unit files k with ⟨e, hrun⟩ | ⟨v, units, -, -, hv, hrun⟩
    · rw [hrun] at hok
      cases hok
    · rw [hrun] at hok ⊢
      cases hok
      exact hv
  · refine .bind (Q := fun _ k => (I k ∧ k.BuildOf id d unit) ∧ k.units.get? unit = some u)
      (.note id .registering fun k hk => ⟨⟨h.note hk.1.1 hk.1.2 rfl, hk.1.2.noting rfl⟩, hk.2⟩)
      fun _ => ?_
    refine .step (fun k _ hk hok => ?_) fun k e hk _ => ?_
    · obtain ⟨hafter, hlisted⟩ := h.register hk.1.1 hk.1.2 hk.2
      exact ⟨⟨hafter, hk.1.2.registerMacro d u⟩, hlisted hok⟩
    · exact ⟨(h.register hk.1.1 hk.1.2 hk.2).1, hk.1.2.registerMacro d u⟩

/-- The steps of a build. -/
theorem buildSteps {typed : Scope → Node → TypeM (Node × TypeRef)} (hclasses : KeepsClasses typed)
    (hruns : ∀ scope n, Runs (typed scope n)) (htyped : ∀ scope n, Preserves I (typed scope n))
    (hunderway : ∀ k id n unit, Numbered unit n →
      ∀ scope tree, Preserves (Underway k id n unit) (typed scope tree))
    {k : Work} (hk : I k) (hd : k.session.definition? id = some d) (hs : d.state = .unresolved) :
    Holds (· = k.noting id .extending) (Typer.buildSteps typed id d)
      (fun _ k => I (k.noting id .resolved))
      (fun _ k => ∀ e, I { k with session := k.session.modifyDefinition id fun d =>
        { d with state := .failed, failure := some e } })
      I := by
  let start := k.noting id .extending
  let n := start.nextNumber (d.owner ++ unitSuffix)
  let unit := start.nextUnit d.owner
  have hbuild {k : Work} (hk : Underway start id n unit k ∧ k.Defines id d ∧ I k) :
      I k ∧ k.BuildOf id d unit := ⟨hk.2.2, .of_builds hk.2.1 hk.1.building⟩
  refine .bind (.prepare (I := fun k => Underway start id n unit k ∧ k.Defines id d ∧ I k)
    (U := (· = unit)) hclasses id d ?_ (fun k' hk' => ?_) (fun scope tree t ht => ?_)
    (fun k' scopes hk' => ?_) (fun e k' hk' => h.fail (hbuild hk').1 (hbuild hk').2)
    fun k' hk' => hk'.2.2) fun ⟨unit', files⟩ => ?_
  · rintro _ rfl
    have hextending : start.session.definition? id = some { d with state := .extending } :=
      Session.definition?_modifyDefinition hd
    have hreachable : start.Reachable :=
      (h.reachable hk).step (.transition k id .extending (by decide))
    have hdefines : (start.naming id d.owner).Defines id d := by
      obtain ⟨d', hd', hspec, howner, -⟩ := buildOf_begin hd
      exact ⟨d', hd', hspec, howner⟩
    exact ⟨⟨underway_naming hreachable hextending rfl d, hdefines, h.begin hk hd hs⟩, rfl⟩
  · have hnoted : (k'.noting id .compiling).BuildOf id d unit := (hbuild hk').2.noting rfl
    obtain ⟨d', hd', hspec, howner, -⟩ := hnoted
    exact ⟨hk'.1.noting rfl, ⟨d', hd', hspec, howner⟩, h.note hk'.2.2 (hbuild hk').2 rfl⟩
  · exact ⟨hunderway start id n unit (start.nextUnit_numbered d.owner) scope tree t ht.1,
      ht.2.1.run (hruns scope tree t), htyped scope tree t ht.2.2⟩
  · have hreachable := hk'.1.reachable.aside { k'.session with scopes } rfl rfl rfl
    exact ⟨hk'.1.of_session hreachable rfl (Nat.le_refl _) rfl rfl fun h => h, hk'.2.1,
      h.scopes hk'.2.2 scopes⟩
  · refine .assuming fun ⟨hunit, _⟩ => ?_
    obtain rfl : unit' = unit := hunit
    refine .bind (h.publish.weaken (fun _ => hbuild) fun e k hk => h.fail hk.1 hk.2) fun _ => ?_
    -- what the registration has led to lasts until the definition is resolved
    refine .step (fun k' _ hk' _ => ?_) fun k' e hk' _ => ?_
    · obtain ⟨hafter, hlisted⟩ := h.persist hk'.1.1 files
      exact h.resolve hafter (hk'.1.2.persist files) (hlisted d unit hk'.2)
    · exact h.fail (h.persist hk'.1.1 files).1 (hk'.1.2.persist files)

/-- **Invariant.** Building keeps it, cut off or not. -/
theorem preserves_require (n id : Nat) : Preserves I (require n id) := by
  induction n generalizing id with
  | zero =>
    intro t ht
    rcases require_cases id t with ⟨r, hr⟩ | ⟨d, -, -, hcut, -⟩
    · rw [hr]; exact ht
    · rw [hcut]; exact ht
  | succ n ih =>
    intro t ht
    rcases require_cases id t with ⟨r, hr⟩ | ⟨d, hd, hs, -, hbuild⟩
    · rw [hr]; exact ht
    · have hsteps := h.buildSteps (keepsClasses_within (require n) expansionLimit)
        (Runs.within (runs_require n) expansionLimit)
        (preserves_within h.toPreserved ih expansionLimit)
        (fun k id number unit hunit => preserves_within (Underway.preserved k id number unit)
          (Typer.preserves_require hunit n) expansionLimit) ht hd hs
        { t with work := t.work.noting id .extending } rfl
      rw [hbuild, buildDefinition_apply]
      revert hsteps
      rcases (Typer.buildSteps (within (require n) expansionLimit) id d).run
        { t with work := t.work.noting id .extending } with s | ⟨e | _, s⟩
      · exact fun h => h
      · exact fun h => h _
      · exact fun h => h

/-- Typing keeps it, cut off or not. -/
theorem preserves_within (n left : Nat) (scope : Scope) (tree : Node) :
    Preserves I (within (require n) left scope tree) :=
  Typer.preserves_within h.toPreserved (h.preserves_require n) left scope tree

end Invariant

end Typer

end Quasiquote
