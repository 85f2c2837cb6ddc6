import Quasiquote.Proofs.Session.Underway

namespace Quasiquote

/-!
# Failed builds — what they leave behind

A build that fails leaves no file of its unit, whatever it fails in.  It leaves no macro
either, unless it fails in its very last step, which is to write the file of the unit: then
the macro is registered and recorded all the same.

* `Typer.registered` — the steps of a build up to the registration of the macro;
* `Work.Unregistered`, `Work.Registered` — what a failure before and after the
  registration leaves behind;
* `Typer.failed_build_leaves` — a failed build leaves its macro exactly if nothing but the
  writing failed.
-/

namespace Work

/-- Whether the unit of a macro in the table of some type has a name. -/
def NamesUnit (k : Work) (unit : String) : Prop :=
  ∃ t ∈ k.session.types.types.values, ∃ e ∈ t.macros.entries, e.unit.name = unit

theorem namesUnit_iff {k : Work} {unit : String} :
    k.NamesUnit unit ↔ ∃ u ∈ k.session.types.units, u.name = unit := by
  simp only [NamesUnit, TypeRegistry.units, OwnerType.units, List.mem_flatMap, List.mem_map]
  constructor
  · rintro ⟨t, ht, e, he, rfl⟩
    exact ⟨e.unit, ⟨t, ht, e, he, rfl⟩, rfl⟩
  · rintro ⟨_, ⟨t, ht, e, he, rfl⟩, rfl⟩
    exact ⟨t, ht, e, he, rfl⟩

theorem recordsUnit_iff {k : Work} {unit : String} :
    k.recordsUnit unit = true ↔ unit ∈ k.session.types.recorded := by
  simp only [recordsUnit, TypeRegistry.descriptors, TypeRegistry.recorded, OwnerType.recorded,
    List.any_eq_true, List.mem_filterMap, List.mem_flatMap, List.mem_map, beq_iff_eq,
    Option.mem_toList]
  constructor
  · rintro ⟨d, ⟨t, ht, hd⟩, r, hr, rfl⟩
    exact ⟨t, ht, r, ⟨d, hd, hr⟩, rfl⟩
  · rintro ⟨t, ht, r, ⟨d, hd, hr⟩, rfl⟩
    exact ⟨d, ⟨t, ht, hd⟩, r, hr, rfl⟩

/-- What every attempt to build definition `id` keeps and leaves, from `k₀` on. -/
structure Attempted (k₀ : Work) (id : Nat) (unit : String) (k : Work) : Prop where
  reachable : k.Reachable
  definition : ∃ d, k.session.definition? id = some d ∧ d.unit = some unit
  settings : k.session.settings = k₀.session.settings
  texts : ∀ root, k.world.files.text? (Path.ofText (unitPath root unit)) =
    k₀.world.files.text? (Path.ofText (unitPath root unit))

/-- What an attempt leaves that fails before the macro is registered. -/
structure Unregistered (k₀ : Work) (id : Nat) (unit : String) (k : Work) : Prop
    extends Attempted k₀ id unit k where
  unnamed : ∀ u ∈ k.session.types.units, u.name ≠ unit
  unrecorded : unit ∉ k.session.types.recorded

/-- What an attempt leaves in which the macro is registered. -/
structure Registered (k₀ : Work) (id : Nat) (owner unit : String) (k : Work) : Prop
    extends Attempted k₀ id unit k where
  named : ∃ u ∈ k.session.types.units, u.name = unit
  recorded : unit ∈ k.session.types.recorded ↔
    ∃ t, k.session.types.get? owner = some t ∧ t.descriptor.isSome = true

variable {k₀ k : Work} {id n : Nat} {unit : String}

theorem Underway.unregistered (h : Underway k₀ id n unit k) : Unregistered k₀ id unit k where
  reachable := h.reachable
  definition := by
    obtain ⟨d, hd, hunit, -⟩ := h.building
    exact ⟨d, hd, hunit⟩
  settings := h.settings
  texts := h.texts
  unnamed := h.unnamed
  unrecorded := h.unrecorded

/-- The name of the next unit is nowhere to be found. -/
theorem underway_naming {d' : MacroDefinition} (h : k.Reachable)
    (hd : k.session.definition? id = some d') (hbuilding : d'.state.isBuilding = true)
    (d : MacroDefinition) :
    Underway k id (k.nextNumber (d.owner ++ Typer.unitSuffix)) (k.nextUnit d.owner)
      (k.naming id d.owner) := by
  have hfree := k.nextUnit_free d.owner
  simp only [unitTaken, knowsUnit, Namespace.knows, Bool.or_eq_false_iff] at hfree
  have hunknown (ha : k.accepts = true) : k.units.get? (k.nextUnit d.owner) = none ∧
      Namespace.fileOf k.world.files k.session.settings.classpath (k.nextUnit d.owner) = none := by
    simpa [ha, NameMap.contains] using hfree.1
  have hreachable := h.step (.extend k id d)
  rw [Typer.extend_run] at hreachable
  refine ⟨hreachable, ⟨{ d' with unit := some (k.nextUnit d.owner) }, ?_, rfl, hbuilding⟩,
    Nat.le_refl _, rfl, fun _ => rfl, ?_, ?_, fun ha => (hunknown ha).2⟩
  · exact Session.definition?_modifyDefinition hd
  · rw [units_naming]
    by_cases ha : k.accepts = true
    · exact (hunknown ha).1
    · exact get?_units_of_not_accepts k ha _
  · show _ ∉ k.session.types.recorded
    rw [← recordsUnit_iff, hfree.2]
    exact Bool.false_ne_true

/-- Noting how far a definition is changes neither its unit nor anything else. -/
theorem Attempted.noting (h : Attempted k₀ id unit k) {state : BuildState}
    (hstate : state ≠ .unresolved) : Attempted k₀ id unit (k.noting id state) := by
  obtain ⟨d, hd, hunit⟩ := h.definition
  exact { h with
    reachable := h.reachable.step (.transition k id state hstate)
    definition := ⟨{ d with state }, Session.definition?_modifyDefinition hd, hunit⟩ }

/-- A unit is loaded whose macro is not registered yet. -/
theorem Unregistered.loadUnit (h : Unregistered k₀ id unit k) (other : String)
    (files : Artifacts) : Unregistered k₀ id unit ((SessionM.loadUnit other files).run k).2 := by
  have hreachable := h.reachable.step (.load k other files)
  obtain ⟨units, hk⟩ := SessionM.keeps_loadUnit other files k
  rw [hk] at hreachable ⊢
  exact {
    reachable := hreachable
    definition := by simpa only [Session.definition?, definitions_withUnits] using h.definition
    settings := by simpa only [settings_withUnits] using h.settings
    texts := by simpa only [files_withUnits] using h.texts
    unnamed := by simpa only [types_withUnits] using h.unnamed
    unrecorded := by simpa only [types_withUnits] using h.unrecorded }

/-- **Registration.** A macro whose owner does not exist is not registered.  Any other one is
    in the table of its owner, and in the descriptor if there is one. -/
theorem Unregistered.registerMacro (h : Unregistered k₀ id unit k) (d : MacroDefinition)
    {loaded : LoadedUnit} (hloaded : k.units.get? unit = some loaded) :
    (∀ e, ((Typer.registerMacro d unit loaded).run k).1 = .error e →
      Unregistered k₀ id unit ((Typer.registerMacro d unit loaded).run k).2) ∧
    (((Typer.registerMacro d unit loaded).run k).1 = .ok () →
      Registered k₀ id d.owner unit ((Typer.registerMacro d unit loaded).run k).2) := by
  have hreachable := h.reachable.step (.registerMacro k d unit loaded hloaded)
  rw [Typer.registerMacro_run] at hreachable ⊢
  cases howner : k.session.types.get? d.owner with
  | none => exact ⟨fun _ _ => h, nofun⟩
  | some owner =>
    rw [howner] at hreachable
    refine ⟨nofun, fun _ => ?_⟩
    have hnew : (k.session.types.modify d.owner (Typer.withMacro d.spec unit loaded)).get?
        d.owner = some (Typer.withMacro d.spec unit loaded owner) :=
      TypeRegistry.get?_modify_self howner _
    refine {
      reachable := hreachable
      definition := h.definition
      settings := h.settings
      texts := h.texts
      named := ⟨loaded, TypeRegistry.mem_units_of_get? hnew
        (Typer.mem_units_withMacro_self d.spec unit loaded owner), ?_⟩
      recorded := ⟨fun hrec => ⟨_, hnew, ?_⟩, ?_⟩ }
    · exact h.reachable.consistent.keyed _ _ hloaded
    · rcases TypeRegistry.mem_recorded_modify hrec with hold | ⟨t, ht, hrec⟩
      · exact absurd hold h.unrecorded
      · obtain rfl : owner = t := Option.some.inj (howner.symm.trans ht)
        exact OwnerType.isSome_of_mem_recorded hrec
    · rintro ⟨t, ht, hdescriptor⟩
      obtain rfl := Option.some.inj (hnew.symm.trans ht)
      exact TypeRegistry.mem_recorded_of_get? hnew
        (Typer.mem_recorded_withMacro_self d.spec unit loaded owner hdescriptor)

end Work

namespace Typer

open Work TypeM

/-- The steps of a build up to the registration of the macro.  What remains is to write the
    file of the unit. -/
def registered (typed : Scope → Node → TypeM (Node × TypeRef)) (id : Nat)
    (d : MacroDefinition) : ExceptT Diagnostic TypeM Artifacts := do
  let (unit, files) ← prepare typed id d
  publish id d unit files
  return files

theorem buildSteps_eq (typed : Scope → Node → TypeM (Node × TypeRef)) (id : Nat)
    (d : MacroDefinition) :
    buildSteps typed id d = registered typed id d >>= fun files => step (persist files) := by
  simp only [buildSteps, registered, bind_assoc, pure_bind]

/-- **Registration.** Up to the registration a build leaves nothing when it fails; after it
    the macro is registered, and a single file is to be written. -/
theorem holds_registered {k : Work} {id : Nat} {d' : MacroDefinition} (h : k.Reachable)
    (hd : k.session.definition? id = some d') (hbuilding : d'.state.isBuilding = true)
    (d : MacroDefinition) {typed : Scope → Node → TypeM (Node × TypeRef)}
    (hclasses : KeepsClasses typed)
    (htyped : ∀ n unit, Numbered unit n → ∀ scope tree,
      Preserves (Underway k id n unit) (typed scope tree)) :
    Holds (· = k) (registered typed id d)
      (fun files k' => Registered k id d.owner (k.nextUnit d.owner) k' ∧
        ∃ text, files.entries = [(k.nextUnit d.owner, text)])
      (fun _ => Unregistered k id (k.nextUnit d.owner)) fun _ => True := by
  let n := k.nextNumber (d.owner ++ unitSuffix)
  let unit := k.nextUnit d.owner
  refine .bind (.prepare (I := Underway k id n unit) (U := (· = unit)) hclasses id d ?_
    (fun k' hk => hk.noting rfl) (htyped n unit (k.nextUnit_numbered d.owner)) ?_
    (fun e k' hk => hk.unregistered) fun _ _ => trivial) fun ⟨unit', files⟩ => ?_
  · rintro _ rfl
    exact ⟨underway_naming h hd hbuilding d, rfl⟩
  · exact fun k' scopes hk => hk.of_session (hk.reachable.aside _ rfl rfl rfl) rfl
      (Nat.le_refl _) rfl rfl fun h => h
  · refine .assuming fun ⟨hunit, text, hfiles⟩ => ?_
    obtain rfl : unit' = unit := hunit
    refine .bind (Q := fun _ => Registered k id d.owner unit) ?_ fun _ =>
      .pure _ fun k' hk => ⟨hk, text, hfiles⟩
    -- loading and registering
    refine .bind (Q := fun _ => Unregistered k id unit)
      (.note id .loading fun k' hk => (hk.noting rfl).unregistered) fun _ => ?_
    refine .bind (Q := fun u k' => Unregistered k id unit k' ∧ k'.units.get? unit = some u)
      (.step ?_ fun k' e hk _ => hk.loadUnit unit files) fun loaded => ?_
    · intro k' u hk hok
      refine ⟨hk.loadUnit unit files, ?_⟩
      rcases SessionM.loadUnit_cases unit files k' with ⟨e, hrun⟩ | ⟨v, units, -, -, hv, hrun⟩
      · rw [hrun] at hok
        cases hok
      · rw [hrun] at hok ⊢
        cases hok
        exact hv
    · refine .bind (Q := fun _ k' => Unregistered k id unit k' ∧
        k'.units.get? unit = some loaded) (.note id .registering fun k' hk => ?_) fun _ => ?_
      · exact ⟨{ hk.1.toAttempted.noting (by decide) with
          unnamed := hk.1.unnamed
          unrecorded := hk.1.unrecorded }, hk.2⟩
      · exact .step (fun k' _ hk hok => (hk.1.registerMacro d hk.2).2 hok)
          fun k' e hk herror => (hk.1.registerMacro d hk.2).1 e herror

/-- A failure is noted at the definition.  It changes neither types nor files. -/
theorem conclude_attempted {k : Work} {id : Nat} {unit : String} {d : MacroDefinition}
    {e e' : Diagnostic} {s t : Typing} (h : Attempted k id unit s.work)
    (hrun : conclude id d (.error e) s = .ok (.error e', t)) :
    e' = buildFailure d (some unit) e ∧ t.work.session.types = s.work.session.types ∧
    t.work.world = s.work.world ∧
    ∃ d', t.work.session.definition? id = some d' ∧ d'.state = .failed ∧ d'.unit = some unit := by
  obtain ⟨d', hd', hunit⟩ := h.definition
  rw [conclude_error, hd', Option.bind_some, hunit] at hrun
  cases hrun
  exact ⟨rfl, rfl, rfl, { d' with state := .failed, failure := some (buildFailure d (some unit) e) },
    Session.definition?_modifyDefinition hd', rfl, hunit⟩

/-- After the registration only the writing of the file can fail.  It changes no text. -/
theorem persist_error {k₀ k : Work} {id : Nat} {files : Artifacts} {unit text : String}
    {e : Diagnostic} (hattempted : Attempted k₀ id unit k)
    (hfiles : files.entries = [(unit, text)]) (h : ((persist files).run k).1 = .error e) :
    Attempted k₀ id unit ((persist files).run k).2 ∧
    ((persist files).run k).2.session = k.session ∧
    ∃ root path reason, k₀.session.settings.destination = some root ∧
      e = .ofFile path reason := by
  have hreachable := hattempted.reachable.step (.persist k files)
  rw [persist_run] at h hreachable ⊢
  cases hroot : k.session.settings.destination with
  | none => rw [hroot] at h; cases h
  | some root =>
    rw [hroot] at h hreachable
    dsimp only at h
    rcases Artifacts.write_cases hfiles root k.world.files with
      ⟨path, reason, herror, hsame⟩ | ⟨⟨paths, hok⟩, -⟩
    · rw [herror] at h
      cases h
      refine ⟨{ hattempted with
        reachable := hreachable
        texts := fun root => (hsame _).trans (hattempted.texts root) }, rfl, root, path, reason,
        hattempted.settings ▸ hroot, rfl⟩
    · rw [hok] at h
      cases h

/-- Whether the build of a definition comes as far as to register its macro. -/
def Registers (nesting id : Nat) (d : MacroDefinition) (t : Typing) : Prop :=
  ∃ files s, (registered (within (require (nesting - 1)) expansionLimit) id d).run
    { t with work := t.work.noting id .extending } = .ok (.ok files, s)

/-- **Failed builds.** Whatever the build of a definition fails in, no file of its unit is
    written.  Its macro stays registered exactly if the failure came after the registration;
    then all that failed is the writing of the file. -/
theorem failed_build_leaves {nesting id : Nat} {t t' : Typing} {d : MacroDefinition}
    {e : Diagnostic} (h : t.work.Reachable) (hd : t.work.session.definition? id = some d)
    (hstate : d.state = .unresolved) (hrun : require nesting id t = .ok (.error e, t')) :
    ∃ unit d', t'.work.session.definition? id = some d' ∧ d'.state = .failed ∧
      d'.unit = some unit ∧ t.work.unitTaken unit = false ∧
      (∀ root, t'.work.world.files.text? (Path.ofText (unitPath root unit)) =
        t.work.world.files.text? (Path.ofText (unitPath root unit))) ∧
      (t'.work.NamesUnit unit ↔ Registers nesting id d t) ∧
      (t'.work.recordsUnit unit = true ↔ Registers nesting id d t ∧
        ∃ owner, t'.work.session.types.get? d.owner = some owner ∧
          owner.descriptor.isSome = true) ∧
      (Registers nesting id d t → ∃ root path reason,
        t.work.session.settings.destination = some root ∧
        e = buildFailure d (some unit) (.ofFile path reason)) := by
  obtain ⟨hcut, hbuild⟩ := require_unresolved hd hstate
  cases nesting with
  | zero =>
    rw [hcut] at hrun
    cases hrun
  | succ nesting =>
    let k := t.work.noting id .extending
    have hreachable : k.Reachable := h.step (.transition t.work id .extending (by decide))
    have hextending : k.session.definition? id = some { d with state := .extending } :=
      Session.definition?_modifyDefinition hd
    have hregistered := holds_registered hreachable hextending rfl d
      (keepsClasses_within (require nesting) expansionLimit)
      (fun n unit hunit scope tree =>
        preserves_within (Underway.preserved k id n unit) (preserves_require hunit nesting)
          expansionLimit scope tree) { t with work := k } rfl
    have hregisters : Registers (nesting + 1) id d t ↔ ∃ files s,
        (registered (within (require nesting) expansionLimit) id d).run { t with work := k } =
          .ok (.ok files, s) := Iff.rfl
    rw [hregisters]
    rw [hbuild, buildDefinition_apply, buildSteps_eq, run_bind] at hrun
    have hfree : t.work.unitTaken (k.nextUnit d.owner) = false := k.nextUnit_free d.owner
    revert hrun hregistered
    generalize (registered (within (require nesting) expansionLimit) id d).run
      { t with work := k } = result
    rcases result with s | ⟨e₀ | files, s⟩
    · exact nofun
    · -- it fails before the registration
      intro hrun hfailed
      have hnone : ¬ ∃ files s', (Except.ok (.error e₀, s) :
          Except Typing (Except Diagnostic Artifacts × Typing)) = .ok (.ok files, s') := by
        rintro ⟨_, _, h⟩
        cases h
      obtain ⟨-, htypes, hworld, d', hd', hstate', hunit⟩ :=
        conclude_attempted hfailed.toAttempted hrun
      refine ⟨_, d', hd', hstate', hunit, hfree, hworld ▸ hfailed.texts, ?_, ?_,
        fun h => absurd h hnone⟩
      · rw [namesUnit_iff, htypes]
        exact iff_of_false (fun ⟨u, hu, hname⟩ => hfailed.unnamed u hu hname) hnone
      · rw [recordsUnit_iff, htypes]
        exact iff_of_false hfailed.unrecorded fun h => hnone h.1
    · -- it can only fail in writing
      rintro hrun ⟨hdone, text, hfiles⟩
      have hsome : ∃ files' s', (Except.ok (.ok files, s) :
          Except Typing (Except Diagnostic Artifacts × Typing)) = .ok (.ok files', s') :=
        ⟨_, _, rfl⟩
      have hpersist : (step (persist files)).run s =
          .ok (((persist files).run s.work).1, { s with work := ((persist files).run s.work).2 }) :=
        TypeM.attempt_apply _ s
      dsimp only at hrun
      rw [hpersist] at hrun
      cases hwrite : ((persist files).run s.work).1 with
      | ok _ =>
        rw [hwrite] at hrun
        cases hrun
      | error e₀ =>
        rw [hwrite] at hrun
        obtain ⟨hattempted, hsession, root, path, reason, hroot, rfl⟩ :=
          persist_error hdone.toAttempted hfiles hwrite
        obtain ⟨he, htypes, hworld, d', hd', hstate', hunit⟩ :=
          conclude_attempted hattempted hrun
        have htypes : t'.work.session.types = s.work.session.types := by
          rw [htypes]
          show ((persist files).run s.work).2.session.types = _
          rw [hsession]
        refine ⟨_, d', hd', hstate', hunit, hfree, hworld ▸ hattempted.texts, ?_, ?_,
          fun _ => ⟨root, path, reason, hroot, he⟩⟩
        · rw [namesUnit_iff, htypes]
          exact iff_of_true hdone.named hsome
        · rw [recordsUnit_iff, htypes]
          exact hdone.recorded.trans (and_iff_right hsome).symm

/-- A definition whose unit cannot be put together: output takes no block. -/
def flawed : MacroDefinition where
  spec := ⟨"loud", [], ⟨.zero, .invoke "puts" [] (some ⟨.zero, .block [] ⟨.zero, .nil⟩ false⟩)⟩⟩
  owner := "Script"
  span := .zero
  source := "example"

theorem failed_build_leaves_flawed :
    let k : Work := ⟨{ Session.start {} (.own {}) with definitions := [flawed] }, {}⟩
    k.Reachable ∧ k.session.definition? 0 = some flawed ∧ flawed.state = .unresolved ∧
    ∃ e t', require 1 0 { work := k } = .ok (.error e, t') ∧
      ∃ unit d', t'.work.session.definition? 0 = some d' ∧ d'.unit = some unit ∧
        ¬ t'.work.NamesUnit unit := by
  intro k
  have hstart : Reachable ⟨Session.start {} (.own {}), {}⟩ :=
    .start {} (.own {}) _ {} Namespace.keyed_empty fun _ h => by
      cases h
      exact Namespace.keyed_empty
  have hreachable : k.Reachable := (hstart.aside { Session.start {} (.own {}) with
    source := "example" } rfl rfl rfl).step (.meet _ flawed.spec "Script" .zero) |>.aside _ rfl rfl rfl
  have hfails : (match require 1 0 { work := k } with
      | .ok (.error _, _) => true
      | _ => false) = true := by
    decide +kernel
  refine ⟨hreachable, rfl, rfl, ?_⟩
  cases hrun : require 1 0 { work := k } with
  | error t' =>
    rw [hrun] at hfails
    cases hfails
  | ok p =>
    obtain ⟨_ | _, t'⟩ := p
    · obtain ⟨unit, d', hd', -, hunit, -, -, hnamed, -, hwriting⟩ :=
        failed_build_leaves hreachable rfl rfl hrun
      refine ⟨_, t', rfl, unit, d', hd', hunit, fun h => ?_⟩
      obtain ⟨root, -, -, hroot, -⟩ := hwriting (hnamed.1 h)
      cases hroot
    · rw [hrun] at hfails
      cases hfails

end Typer

end Quasiquote
