import Quasiquote.Proofs.Files
import Quasiquote.Proofs.Session.Assertions
import Quasiquote.Proofs.Session.Names
import Quasiquote.Proofs.Session.Reachable

namespace Quasiquote

/-!
# Builds under way — what nested builds leave alone

While the unit of a macro is typed, other macros are built.  None of this touches the
definition whose macro is built, nor brings up anything of the name of its unit: no
loaded unit, no record, no file.

* `Work.Underway` — what the build of a definition relies on;
* `Typer.preserves_require`, `Typer.preserves_within` — building and typing keep it.
-/

namespace Work

/-- The next unit is numbered by the next number. -/
theorem nextUnit_numbered (k : Work) (owner : String) :
    Numbered (k.nextUnit owner) (k.nextNumber (owner ++ Typer.unitSuffix)) :=
  ⟨k.session.settings.package, owner, rfl⟩

/-- The next unit is a new one. -/
theorem nextUnit_free (k : Work) (owner : String) : k.unitTaken (k.nextUnit owner) = false := by
  have hfree := (k.nextNumber_free (owner ++ Typer.unitSuffix)).2.1
  exact Bool.eq_false_iff.2 hfree

/-- What the build of definition `id` relies on while its unit, whose number is `n`, is not
    loaded.  The build started in `k₀`. -/
structure Underway (k₀ : Work) (id n : Nat) (unit : String) (k : Work) : Prop where
  reachable : k.Reachable
  building : ∃ d, k.session.definition? id = some d ∧ d.unit = some unit ∧
    d.state.isBuilding = true
  counter : n ≤ k.session.counter
  settings : k.session.settings = k₀.session.settings
  texts : ∀ root, k.world.files.text? (Path.ofText (unitPath root unit)) =
    k₀.world.files.text? (Path.ofText (unitPath root unit))
  unloaded : k.units.get? unit = none
  unrecorded : unit ∉ k.session.types.recorded
  noFile : k.accepts = true →
    Namespace.fileOf k.world.files k.session.settings.classpath unit = none

namespace Underway

variable {k₀ k : Work} {id n : Nat} {unit : String}

/-- No table names the unit, because the units that tables name are loaded. -/
theorem unnamed (h : Underway k₀ id n unit k) : ∀ u ∈ k.session.types.units, u.name ≠ unit := by
  rintro u hu rfl
  have := h.reachable.consistent.loaded u hu
  rw [h.unloaded] at this
  cases this

/-- Steps may change what the build does not rely on. -/
theorem of_session (h : Underway k₀ id n unit k) {session : Session}
    (hreachable : Reachable { k with session })
    (hdefinition : session.definition? id = k.session.definition? id)
    (hcounter : k.session.counter ≤ session.counter)
    (hsettings : session.settings = k.session.settings)
    (hbackend : session.backend = k.session.backend)
    (hrecorded : unit ∈ session.types.recorded → unit ∈ k.session.types.recorded) :
    Underway k₀ id n unit { k with session } where
  reachable := hreachable
  building := by simpa only [hdefinition] using h.building
  counter := Nat.le_trans h.counter hcounter
  settings := hsettings.trans h.settings
  texts := h.texts
  unloaded := by simpa only [units, hbackend] using h.unloaded
  unrecorded hrec := h.unrecorded (hrecorded hrec)
  noFile := by simpa only [accepts, hbackend, hsettings] using h.noFile

/-- A change of another definition. -/
theorem of_definition (h : Underway k₀ id n unit k) {other : Nat} (hne : other ≠ id)
    (f : MacroDefinition → MacroDefinition)
    (hreachable : Reachable { k with session := k.session.modifyDefinition other f }) :
    Underway k₀ id n unit { k with session := k.session.modifyDefinition other f } := by
  refine h.of_session hreachable ?_ (Nat.le_refl _) rfl rfl fun h => h
  exact Session.definition?_modify_ne rfl hne.symm

/-- The build notes how far it is. -/
theorem noting (h : Underway k₀ id n unit k) {state : BuildState}
    (hstate : state.isBuilding = true) : Underway k₀ id n unit (k.noting id state) := by
  have hne : state ≠ .unresolved := by
    rintro rfl
    cases hstate
  obtain ⟨d, hd, hunit, -⟩ := h.building
  exact { h with
    reachable := h.reachable.step (.transition k id state hne)
    building := ⟨{ d with state }, Session.definition?_modifyDefinition hd, hunit, hstate⟩ }

/-- Looking units up finds other ones only. -/
theorem resolveAll (h : Underway k₀ id n unit k) (rs : List MacroRecord) :
    ((SessionM.resolveAll rs).run k).2.units.get? unit = none ∧
    ∀ macros, ((SessionM.resolveAll rs).run k).1 = .ok macros → ∀ r ∈ rs, r.unit ≠ unit := by
  obtain ⟨hunloaded, hnoFile⟩ : k.units.get? unit = none ∧ (k.accepts = true →
      Namespace.fileOf k.world.files k.session.settings.classpath unit = none) :=
    ⟨h.unloaded, h.noFile⟩
  clear h
  induction rs generalizing k with
  | nil => exact ⟨hunloaded, fun _ _ r hr => absurd hr List.not_mem_nil⟩
  | cons r rs ih =>
    simp only [SessionM.resolveAll, run_bind_apply]
    rcases SessionM.withUnits_cases r.unit (fun units k =>
        units.resolve k.world.files k.session.settings.classpath r.unit) k with
      ⟨e, hrun⟩ | ⟨u, units, ha, hu, hrun⟩
    · have hrun : (SessionM.resolveUnit r.unit).run k = (.error e, k) := hrun
      rw [hrun]
      exact ⟨hunloaded, fun _ hms => by cases hms⟩
    · have hrun : (SessionM.resolveUnit r.unit).run k = (.ok u, k.withUnits units) := hrun
      have hne : r.unit ≠ unit := Namespace.resolve_ne hu hunloaded (hnoFile ha)
      have hstill : (k.withUnits units).units.get? unit = none := by
        rw [units_withUnits _ _ ha, Namespace.get?_resolve_of_ne hu hne.symm]
        exact hunloaded
      have hrest := ih (k := k.withUnits units) hstill (by simpa using hnoFile)
      rw [hrun]
      revert hrest
      dsimp only
      rcases (SessionM.resolveAll rs).run (k.withUnits units) with ⟨e | macros, k'⟩
      · exact fun hrest => ⟨hrest.1, fun _ hms => by cases hms⟩
      · intro hrest
        refine ⟨hrest.1, fun ms hms r' hr' => ?_⟩
        rcases List.mem_cons.1 hr' with rfl | hr'
        · exact hne
        · exact hrest.2 macros rfl r' hr'

theorem importType (h : Underway k₀ id n unit k) (name : String) :
    Underway k₀ id n unit ((SessionM.importType name).run k).2 := by
  have hreachable := h.reachable.step (.importType k name)
  have hfree : ((SessionM.importType name).run k).2.units.get? unit = none ∧
      unit ∉ ((SessionM.importType name).run k).2.session.types.recorded := by
    rw [SessionM.importType_run]
    cases Descriptor.find k.world.files name k.session.settings.classpath with
    | error e => exact ⟨h.unloaded, h.unrecorded⟩
    | ok found =>
      cases found with
      | none => exact ⟨h.unloaded, h.unrecorded⟩
      | some d =>
        obtain ⟨hunloaded, hother⟩ := h.resolveAll d.macros
        obtain ⟨units, hunits⟩ := SessionM.keeps_resolveAll d.macros k
        revert hunloaded hother hunits
        dsimp only
        rcases (SessionM.resolveAll d.macros).run k with ⟨e | macros, k'⟩
        · rintro hunloaded - rfl
          exact ⟨hunloaded, by simpa using h.unrecorded⟩
        · rintro hunloaded hother rfl
          refine ⟨hunloaded, fun hrec => ?_⟩
          rcases TypeRegistry.mem_recorded_install hrec with hrec | hrec
          · rw [OwnerType.recorded_ofDescriptor] at hrec
            obtain ⟨r, hr, hunit⟩ := List.mem_map.1 hrec
            exact hother macros rfl r hr hunit
          · exact h.unrecorded (by simpa using hrec)
  obtain ⟨types, units, hk'⟩ := SessionM.keeps_importType name k
  rw [hk'] at hreachable hfree ⊢
  have haccepts : ({ k with session := { k.session with types } } : Work).accepts = k.accepts := rfl
  exact {
    reachable := hreachable
    building := by simpa only [Session.definition?, definitions_withUnits] using h.building
    counter := by simpa only [counter_withUnits] using h.counter
    settings := by simpa only [settings_withUnits] using h.settings
    texts := by simpa only [files_withUnits] using h.texts
    unloaded := hfree.1
    unrecorded := hfree.2
    noFile := by
      simpa only [accepts_withUnits, haccepts, files_withUnits, settings_withUnits] using h.noFile }

/-- **Frame.** What typing does step by step leaves alone what a build relies on. -/
theorem preserved (k₀ : Work) (id n : Nat) (unit : String) :
    Typer.Preserved (Underway k₀ id n unit) where
  meet h spec owner span := by
    obtain ⟨d, hd, -⟩ := h.building
    refine h.of_session (h.reachable.step (.meet _ spec owner span)) ?_ (Nat.le_refl _) rfl rfl
      fun h => h
    exact List.getElem?_append_left (List.getElem?_eq_some_iff.1 hd).1
  declare h owner m :=
    h.of_session (h.reachable.step (.declare _ owner m)) rfl (Nat.le_refl _) rfl rfl
      TypeRegistry.mem_recorded_define
  importType h name _ := h.importType name
  openType h name superclass persistent :=
    h.of_session (h.reachable.step (.openType _ name superclass persistent)) rfl (Nat.le_refl _)
      rfl rfl TypeRegistry.mem_recorded_openType
  expand h called call :=
    { h with reachable := h.reachable.step (.expand _ called call) }
  record h e he :=
    h.of_session (h.reachable.step (.record _ e he)) rfl (Nat.le_refl _) rfl rfl fun h => h

/-! ### Other builds -/

/-- Whether two units differ in their names and in the paths of their files. -/
def Apart (unit other : String) : Prop :=
  other ≠ unit ∧ ∀ root root',
    Path.ofText (unitPath root unit) ≠ Path.ofText (unitPath root' other)

theorem apart_of_numbered {unit other : String} {n m : Nat} (h : Numbered unit n)
    (h' : Numbered other m) (hlt : n < m) : Apart unit other := by
  refine ⟨?_, h.path_ne h' (Nat.ne_of_lt hlt)⟩
  rintro rfl
  exact Nat.ne_of_lt hlt (h.inj h')

/-- A later unit has another name. -/
theorem naming (h : Underway k₀ id n unit k) (hunit : Numbered unit n) {other : Nat}
    (hne : other ≠ id) (d : MacroDefinition) :
    Underway k₀ id n unit (k.naming other d.owner) ∧ Apart unit (k.nextUnit d.owner) := by
  have hlt := (k.nextNumber_free (d.owner ++ Typer.unitSuffix)).1
  have hreachable := h.reachable.step (.extend k other d)
  rw [Typer.extend_run] at hreachable
  refine ⟨h.of_session hreachable ?_ (Nat.le_of_lt hlt) rfl rfl fun h => h, ?_⟩
  · exact Session.definition?_modify_ne rfl hne.symm
  · exact apart_of_numbered hunit (k.nextUnit_numbered d.owner) (Nat.lt_of_le_of_lt h.counter hlt)

theorem noting_other (h : Underway k₀ id n unit k) {other : Nat} (hne : other ≠ id)
    {state : BuildState} (hstate : state ≠ .unresolved) :
    Underway k₀ id n unit (k.noting other state) :=
  h.of_definition hne _ (h.reachable.step (.transition k other state hstate))

/-- Another unit is loaded. -/
theorem loadUnit (h : Underway k₀ id n unit k) {other text : String} (hne : other ≠ unit)
    {files : Artifacts} (hfiles : files.entries = [(other, text)]) :
    Underway k₀ id n unit ((SessionM.loadUnit other files).run k).2 := by
  have hreachable := h.reachable.step (.load k other files)
  rcases SessionM.loadUnit_cases other files k with ⟨e, hrun⟩ | ⟨u, units, ha, hload, -, hrun⟩
  · rw [hrun]
    exact h
  · rw [hrun] at hreachable ⊢
    exact {
      reachable := hreachable
      building := by simpa only [Session.definition?, definitions_withUnits] using h.building
      counter := by simpa only [counter_withUnits] using h.counter
      settings := by simpa only [settings_withUnits] using h.settings
      texts := by simpa only [files_withUnits] using h.texts
      unloaded := by
        rw [units_withUnits _ _ ha, Namespace.get?_load_of_ne hfiles hload hne.symm]
        exact h.unloaded
      unrecorded := by simpa only [types_withUnits] using h.unrecorded
      noFile := by
        simpa only [accepts_withUnits, files_withUnits, settings_withUnits] using h.noFile }

/-- Another macro is registered. -/
theorem registerMacro (h : Underway k₀ id n unit k) (d : MacroDefinition) {other : String}
    (hne : other ≠ unit) {loaded : LoadedUnit} (hloaded : k.units.get? other = some loaded) :
    Underway k₀ id n unit ((Typer.registerMacro d other loaded).run k).2 := by
  have hreachable := h.reachable.step (.registerMacro k d other loaded hloaded)
  rw [Typer.registerMacro_run] at hreachable ⊢
  cases hd : k.session.types.get? d.owner with
  | none => exact h
  | some owner =>
    rw [hd] at hreachable
    refine h.of_session hreachable rfl (Nat.le_refl _) rfl rfl fun hrec => ?_
    rcases TypeRegistry.mem_recorded_modify hrec with hrec | ⟨t, ht, hrec⟩
    · exact hrec
    · rcases Typer.mem_recorded_withMacro _ _ _ _ hrec with hunit | hrec
      · exact absurd hunit.symm hne
      · exact TypeRegistry.mem_recorded_of_get? ht hrec

/-- Files change, but none of the unit. -/
theorem withFiles (h : Underway k₀ id n unit k) {files : Files}
    (htexts : ∀ root, files.text? (Path.ofText (unitPath root unit)) =
      k.world.files.text? (Path.ofText (unitPath root unit))) :
    Underway k₀ id n unit { k with world := { k.world with files } } :=
  { h with
    reachable := h.reachable.withFiles files
    texts := fun root => (htexts root).trans (h.texts root)
    noFile := fun ha => by
      have hsame : Namespace.fileOf files k.session.settings.classpath unit =
          Namespace.fileOf k.world.files k.session.settings.classpath unit := by
        simp only [Namespace.fileOf, htexts]
      exact hsame.trans (h.noFile ha) }

/-- The file of another unit is written. -/
theorem persist (h : Underway k₀ id n unit k) {other text : String} (hapart : Apart unit other)
    {files : Artifacts} (hfiles : files.entries = [(other, text)]) :
    Underway k₀ id n unit ((Typer.persist files).run k).2 := by
  rw [Typer.persist_run]
  cases k.session.settings.destination with
  | none => exact h
  | some root =>
    refine h.withFiles fun root' => ?_
    rcases Artifacts.write_cases hfiles root k.world.files with ⟨_, _, -, hsame⟩ | ⟨-, hsame⟩
    · exact hsame _
    · exact hsame _ (hapart.2 root' root)

/-- Another definition fails. -/
theorem fail (h : Underway k₀ id n unit k) {other : Nat} (hne : other ≠ id) (e : Diagnostic) :
    Underway k₀ id n unit { k with session := k.session.modifyDefinition other fun d =>
      { d with state := .failed, failure := some e } } :=
  h.of_definition hne _ (h.reachable.step (.fail k other e))

end Underway

end Work

namespace Typer

open Work TypeM

variable {k₀ : Work} {id n : Nat} {unit : String}

/-- The build of another definition leaves alone what a build relies on. -/
theorem preserves_buildDefinition (hunit : Numbered unit n)
    {typed : Scope → Node → TypeM (Node × TypeRef)} (hclasses : KeepsClasses typed)
    (htyped : ∀ scope n', Preserves (Underway k₀ id n unit) (typed scope n')) {other : Nat}
    (hne : other ≠ id) (d : MacroDefinition) :
    Preserves (Underway k₀ id n unit) (buildDefinition typed other d) := by
  have hsteps : Holds (Underway k₀ id n unit) (buildSteps typed other d)
      (fun _ => Underway k₀ id n unit) (fun _ => Underway k₀ id n unit)
      (Underway k₀ id n unit) := by
    refine .bind (.prepare hclasses other d (fun k hk => hk.naming hunit hne d)
      (fun k hk => hk.noting_other hne (by decide)) (fun scope n' t ht => htyped scope n' t ht)
      (fun k scopes hk => ?_) (fun e k hk => hk) fun k hk => hk) fun ⟨unit', files⟩ => ?_
    · exact hk.of_session (hk.reachable.aside _ rfl rfl rfl) rfl (Nat.le_refl _) rfl rfl
        fun h => h
    · refine .assuming fun ⟨hapart, text, hfiles⟩ => ?_
      refine .bind (Q := fun _ => Underway k₀ id n unit) ?_ fun _ => ?_
      · -- loading and registering
        refine .bind (.note other .loading fun k hk => hk.noting_other hne (by decide)) fun _ => ?_
        refine .bind (Q := fun u k => Underway k₀ id n unit k ∧ k.units.get? unit' = some u)
          (.step ?_ fun k e hk _ => hk.loadUnit hapart.1 hfiles) fun loaded => ?_
        · intro k u hk hok
          refine ⟨hk.loadUnit hapart.1 hfiles, ?_⟩
          rcases SessionM.loadUnit_cases unit' files k with ⟨e, hrun⟩ | ⟨v, units, -, -, hv, hrun⟩
          · rw [hrun] at hok
            cases hok
          · rw [hrun] at hok ⊢
            cases hok
            exact hv
        · refine .bind (Q := fun _ k => Underway k₀ id n unit k ∧
            k.units.get? unit' = some loaded) (.note other .registering fun k hk =>
              ⟨hk.1.noting_other hne (by decide), hk.2⟩) fun _ => ?_
          exact .step (fun k _ hk _ => hk.1.registerMacro d hapart.1 hk.2)
            fun k _ hk _ => hk.1.registerMacro d hapart.1 hk.2
      · exact .step (fun k _ hk _ => hk.persist hapart hfiles)
          fun k _ hk _ => hk.persist hapart hfiles
  refine .bind (fun t ht => ht.noting_other hne (by decide)) fun _ => ?_
  refine .bind hsteps.preserves fun r => ?_
  cases r with
  | ok _ =>
    exact .bind (fun t ht => ht.noting_other hne (by decide)) fun _ t ht => ht
  | error e =>
    exact .bind (fun t ht => ht) fun s => .bind (fun t ht => ht.fail hne _) fun _ t ht => ht

/-- Building other definitions leaves alone what a build relies on. -/
theorem preserves_require (hunit : Numbered unit n) (nesting other : Nat) :
    Preserves (Underway k₀ id n unit) (require nesting other) := by
  induction nesting generalizing other with
  | zero =>
    intro t ht
    rcases require_cases other t with ⟨r, hr⟩ | ⟨d, -, -, hcut, -⟩
    · rw [hr]; exact ht
    · rw [hcut]; exact ht
  | succ nesting ih =>
    intro t ht
    rcases require_cases other t with ⟨r, hr⟩ | ⟨d, hd, hstate, -, hbuild⟩
    · rw [hr]; exact ht
    · -- the definition that is built already is another one
      have hne : other ≠ id := by
        rintro rfl
        obtain ⟨d', hd', -, hbuilding⟩ := ht.building
        obtain rfl : d = d' := Option.some.inj (hd.symm.trans hd')
        rw [hstate] at hbuilding
        cases hbuilding
      rw [hbuild]
      exact preserves_buildDefinition hunit (keepsClasses_within _ _)
        (preserves_within (Underway.preserved k₀ id n unit) ih _) hne d t ht

end Typer

end Quasiquote
