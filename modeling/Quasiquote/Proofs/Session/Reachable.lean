import Quasiquote.Proofs.Session.Runs
import Quasiquote.Proofs.Types.Registry
import Quasiquote.Proofs.Unit.Namespace

namespace Quasiquote

/-!
# Reachable sessions — macros whose units are loaded

Whatever a session goes through, and whatever other sessions and programs do to the
world meanwhile, the unit of every macro that can be called is loaded under its name.

* `Work.Reachable` — the sessions that can arise, those within a compilation too;
* `Work.Reachable.run`, `Work.Reachable.reached` — typing, building and compiling
  reach them only;
* `Work.Consistent`, `Work.Reachable.consistent` — the invariant.
-/

/-- The entries of an imported type are made of its records and their units. -/
theorem OwnerType.mem_entries_ofDescriptor {d : Descriptor}
    {macros : List (MacroRecord × LoadedUnit)} {e : MacroEntry}
    (h : e ∈ (ofDescriptor d macros).macros.entries) :
    ∃ p ∈ macros, p.1.name = e.name ∧ p.2 = e.unit := by
  have hfold (ps : List (MacroRecord × LoadedUnit)) (table : MacroTable)
      (h : e ∈ (ps.foldl (fun table p =>
        (table.add ⟨p.1.name, p.1.signature, if d.isBlockless p.1 then .blockless else .full,
          p.2⟩).1) table).entries) :
      (∃ p ∈ ps, p.1.name = e.name ∧ p.2 = e.unit) ∨ e ∈ table.entries := by
    induction ps generalizing table with
    | nil => exact .inr h
    | cons p ps ih =>
      rcases ih _ h with ⟨p', hp', hu⟩ | he
      · exact .inl ⟨p', List.mem_cons_of_mem _ hp', hu⟩
      · rcases OwnerType.mem_addTo he with rfl | he
        · exact .inl ⟨p, List.mem_cons_self, rfl, rfl⟩
        · exact .inr he
  exact (hfold macros {} h).elim id fun he => absurd he List.not_mem_nil

/-- The units of an imported type are those of its records. -/
theorem OwnerType.mem_units_ofDescriptor {d : Descriptor}
    {macros : List (MacroRecord × LoadedUnit)} {u : LoadedUnit}
    (h : u ∈ (ofDescriptor d macros).units) : ∃ p ∈ macros, p.2 = u := by
  obtain ⟨e, he, rfl⟩ := List.mem_map.1 h
  obtain ⟨p, hp, -, hu⟩ := mem_entries_ofDescriptor he
  exact ⟨p, hp, hu⟩

@[simp] theorem OwnerType.recorded_ofDescriptor (d : Descriptor)
    (macros : List (MacroRecord × LoadedUnit)) :
    (ofDescriptor d macros).recorded = d.macros.map MacroRecord.unit := by
  simp [recorded, ofDescriptor]

namespace Typer

/-! ### The units of a registered macro -/

theorem units_foldl_recordMacro (rs : List MacroRecord) (t : OwnerType) :
    (rs.foldl OwnerType.recordMacro t).units = t.units := by
  induction rs generalizing t with
  | nil => rfl
  | cons r rs ih => exact ih _

variable (spec : MacroSpec) (unit : String) (loaded : LoadedUnit) (t : OwnerType)

/-- The table of a type with one more macro names one more unit. -/
theorem mem_units_withMacro {u : LoadedUnit} (h : u ∈ (withMacro spec unit loaded t).units) :
    u = loaded ∨ u ∈ t.units := by
  have hmacro {u : LoadedUnit} (h : u ∈ (t.addMacro spec.name spec.signature loaded).1.units) :
      u = loaded ∨ u ∈ t.units :=
    OwnerType.mem_units_addEntry h
  unfold withMacro at h
  rw [units_foldl_recordMacro] at h
  split at h
  · rcases OwnerType.mem_units_addEntry h with h | h
    · exact .inl h
    · exact hmacro h
  · exact hmacro h

theorem mem_recorded_foldl_recordMacro {rs : List MacroRecord} {t : OwnerType} {name : String}
    (h : name ∈ (rs.foldl OwnerType.recordMacro t).recorded) :
    name ∈ rs.map MacroRecord.unit ∨ name ∈ t.recorded := by
  induction rs generalizing t with
  | nil => exact .inr h
  | cons r rs ih =>
    rcases ih h with h | h
    · exact .inl (List.mem_cons_of_mem _ h)
    · exact (OwnerType.mem_recorded_recordMacro h).imp_left fun h => List.mem_cons.2 (.inl h)

/-- The records of a macro name its unit. -/
theorem unit_of_mem_recordsOf {r : MacroRecord} (h : r ∈ recordsOf spec unit) : r.unit = unit := by
  unfold recordsOf at h
  rcases List.mem_cons.1 h with rfl | h
  · rfl
  · split at h
    · rw [List.mem_singleton.1 h]
    · cases h

/-- The descriptor of a type with one more macro names one more unit. -/
theorem mem_recorded_withMacro {name : String}
    (h : name ∈ (withMacro spec unit loaded t).recorded) : name = unit ∨ name ∈ t.recorded := by
  unfold withMacro at h
  rcases mem_recorded_foldl_recordMacro h with h | h
  · obtain ⟨r, hr, rfl⟩ := List.mem_map.1 h
    exact .inl (unit_of_mem_recordsOf spec unit hr)
  · refine .inr ?_
    split at h
    · exact h
    · exact h

/-- The unit of a registered macro is in the descriptor of its owner, if there is one. -/
theorem mem_recorded_withMacro_self
    (h : (withMacro spec unit loaded t).descriptor.isSome = true) :
    unit ∈ (withMacro spec unit loaded t).recorded := by
  have hrecord (t : OwnerType) (r : MacroRecord) (hr : r.unit = unit)
      (h : (t.recordMacro r).descriptor.isSome = true) : unit ∈ (t.recordMacro r).recorded := by
    rw [← hr]
    exact OwnerType.mem_recorded_recordMacro_self t r (by simpa [OwnerType.recordMacro] using h)
  unfold withMacro recordsOf at h ⊢
  by_cases hblock : spec.hasOptionalBlock = true
  · simp only [hblock, if_true, List.foldl_cons, List.foldl_nil] at h ⊢
    exact hrecord _ _ rfl h
  · simp only [hblock, List.foldl_cons] at h ⊢
    exact hrecord _ _ rfl h

/-- The unit of a registered macro is in the table of its owner. -/
theorem mem_units_withMacro_self : loaded ∈ (withMacro spec unit loaded t).units := by
  unfold withMacro
  rw [units_foldl_recordMacro]
  split
  · exact OwnerType.mem_units_addEntry_self _
      ⟨spec.name, spec.signature.withoutBlock, .blockless, loaded⟩
  · exact OwnerType.mem_units_addEntry_self _ ⟨spec.name, spec.signature, .full, loaded⟩

end Typer

namespace Work

/-! ### The invariant -/

/-- Whether units are kept under their own names, and those of all macros are loaded. -/
structure Consistent (k : Work) : Prop where
  shared : k.world.shared.Keyed
  keyed : k.units.Keyed
  loaded : ∀ u ∈ k.session.types.units, k.units.get? u.name = some u

namespace Consistent

variable {k : Work}

/-- Types may change as long as the units of their macros are loaded. -/
theorem withTypes (h : k.Consistent) (session : Session)
    (hbackend : session.backend = k.session.backend)
    (hunits : ∀ u ∈ session.types.units,
      u ∈ k.session.types.units ∨ k.units.get? u.name = some u) :
    Consistent { k with session } := by
  have hsame : ({ k with session } : Work).units = k.units := by
    simp only [units, hbackend]
  refine ⟨h.shared, hsame ▸ h.keyed, fun u hu => ?_⟩
  rw [hsame]
  exact (hunits u hu).elim (h.loaded u) id

/-- More units may be loaded. -/
theorem withUnits (h : k.Consistent) {units : Namespace} (hkeyed : units.Keyed)
    (hgrows : k.units.Grows units) : (k.withUnits units).Consistent := by
  obtain ⟨session, world⟩ := k
  have hloaded (u : LoadedUnit) (hu : u ∈ session.types.units) : units.get? u.name = some u :=
    hgrows _ _ (h.loaded u hu)
  cases hb : session.backend with
  | own _ =>
    simp only [Work.withUnits, hb]
    exact ⟨h.shared, hkeyed, hloaded⟩
  | shared =>
    simp only [Work.withUnits, hb]
    exact ⟨hkeyed, by simpa only [Work.units, hb] using hkeyed,
      by simpa only [Work.units, hb] using hloaded⟩
  | rejecting =>
    simp only [Work.withUnits, hb]
    exact h

/-- Loading and looking up only add units. -/
theorem withUnits_run (h : k.Consistent) (unit : String)
    (f : Namespace → Work → Except Diagnostic (LoadedUnit × Namespace))
    (hf : ∀ u units, f k.units k = .ok (u, units) →
      units.Keyed ∧ k.units.Grows units ∧ units.get? unit = some u) :
    ((SessionM.withUnits unit f).run k).2.Consistent ∧
    k.units.Grows ((SessionM.withUnits unit f).run k).2.units ∧
    ∀ u, ((SessionM.withUnits unit f).run k).1 = .ok u →
      ((SessionM.withUnits unit f).run k).2.units.get? unit = some u := by
  rcases SessionM.withUnits_cases unit f k with ⟨d, hrun⟩ | ⟨u, units, ha, hu, hrun⟩
  · rw [hrun]
    exact ⟨h, .refl _, nofun⟩
  · obtain ⟨hkeyed, hgrows, hget⟩ := hf u units hu
    rw [hrun, units_withUnits _ _ ha]
    refine ⟨h.withUnits hkeyed hgrows, hgrows, fun v hv => ?_⟩
    cases hv
    exact hget

theorem loadUnit (h : k.Consistent) (unit : String) (files : Artifacts) :
    ((SessionM.loadUnit unit files).run k).2.Consistent :=
  (h.withUnits_run unit _ fun _ _ hload => by
    obtain ⟨units, -, hp, hget⟩ := Namespace.load_ok hload
    exact ⟨h.keyed.publish hp, Namespace.grows_publish hp, hget⟩).1

theorem resolveUnit (h : k.Consistent) (unit : String) :
    ((SessionM.resolveUnit unit).run k).2.Consistent ∧
    k.units.Grows ((SessionM.resolveUnit unit).run k).2.units ∧
    ∀ u, ((SessionM.resolveUnit unit).run k).1 = .ok u →
      ((SessionM.resolveUnit unit).run k).2.units.get? unit = some u := by
  refine h.withUnits_run unit _ fun u units hresolve => ?_
  rcases Namespace.resolve_ok hresolve with ⟨rfl, hget⟩ | ⟨text, v, -, -, -, hp, hget⟩
  · exact ⟨h.keyed, .refl _, hget⟩
  · exact ⟨h.keyed.publish hp, Namespace.grows_publish hp, hget⟩

/-- The units of macro records are loaded when all of them have been looked up. -/
theorem resolveAll (h : k.Consistent) (rs : List MacroRecord) :
    ((SessionM.resolveAll rs).run k).2.Consistent ∧
    k.units.Grows ((SessionM.resolveAll rs).run k).2.units ∧
    ∀ macros, ((SessionM.resolveAll rs).run k).1 = .ok macros →
      ∀ p ∈ macros, ((SessionM.resolveAll rs).run k).2.units.get? p.2.name = some p.2 := by
  induction rs generalizing k with
  | nil =>
    refine ⟨h, .refl _, fun macros hm => ?_⟩
    cases hm
    exact fun p hp => absurd hp List.not_mem_nil
  | cons r rs ih =>
    obtain ⟨hc, hgrows, hget⟩ := h.resolveUnit r.unit
    simp only [SessionM.resolveAll, run_bind_apply]
    revert hc hgrows hget
    rcases (SessionM.resolveUnit r.unit).run k with ⟨e | u, k₁⟩
    · intro hc hgrows _
      exact ⟨hc, hgrows, fun _ hmacros => by cases hmacros⟩
    · intro hc hgrows hget
      have hu : k₁.units.get? u.name = some u := by
        have := hget u rfl
        rwa [hc.keyed _ _ this]
      obtain ⟨hc₂, hgrows₂, hall⟩ := ih hc
      revert hc₂ hgrows₂ hall
      dsimp only
      rcases (SessionM.resolveAll rs).run k₁ with ⟨e | macros, k₂⟩
      · intro hc₂ hgrows₂ _
        exact ⟨hc₂, hgrows.trans hgrows₂, fun _ hmacros => by cases hmacros⟩
      · intro hc₂ hgrows₂ hall
        refine ⟨hc₂, hgrows.trans hgrows₂, fun ms hms => ?_⟩
        cases hms
        intro p hp
        rcases List.mem_cons.1 hp with rfl | hp
        · exact hgrows₂ _ _ hu
        · exact hall macros rfl p hp

/-- Importing a type keeps the units of all macros loaded, those of the type too. -/
theorem importType (h : k.Consistent) (name : String) :
    ((SessionM.importType name).run k).2.Consistent := by
  rw [SessionM.importType_run]
  cases Descriptor.find k.world.files name k.session.settings.classpath with
  | error e => exact h
  | ok found =>
    cases found with
    | none => exact h
    | some d =>
      obtain ⟨hc, -, hall⟩ := h.resolveAll d.macros
      revert hc hall
      dsimp only
      rcases (SessionM.resolveAll d.macros).run k with ⟨e | macros, k'⟩
      · exact fun hc _ => hc
      · intro hc hall
        refine hc.withTypes _ rfl fun u hu => ?_
        rcases TypeRegistry.mem_units_install hu with hu | hu
        · obtain ⟨p, hp, rfl⟩ := OwnerType.mem_units_ofDescriptor hu
          exact .inr (hall macros rfl p hp)
        · exact .inl hu

/-- **Invariant.** Every step keeps the units of all macros loaded. -/
theorem step (h : k.Consistent) {k' : Work} (hstep : Step k k') : k'.Consistent := by
  cases hstep
  case declare owner m =>
    exact h.withTypes _ rfl fun u hu => .inl (TypeRegistry.mem_units_define hu)
  case importType name => exact h.importType name
  case openType name superclass persistent =>
    exact h.withTypes _ rfl fun u hu => .inl (TypeRegistry.mem_units_openType hu)
  case expand unit call => exact ⟨h.shared, h.keyed, h.loaded⟩
  case extend id d =>
    rw [Typer.extend_run]
    exact h.withTypes _ rfl fun u hu => .inl hu
  case load unit files => exact h.loadUnit unit files
  case registerMacro d unit loaded hloaded =>
    rw [Typer.registerMacro_run]
    split
    · exact h
    · refine h.withTypes _ rfl fun u hu => ?_
      rcases TypeRegistry.mem_units_modify hu with hu | ⟨t, ht, hu⟩
      · exact .inl hu
      · rcases Typer.mem_units_withMacro _ _ _ _ hu with rfl | hu
        · exact .inr (by rwa [h.keyed _ _ hloaded])
        · exact .inl (TypeRegistry.mem_units_of_get? ht hu)
  case persist files =>
    rw [Typer.persist_run]
    split
    · exact h
    · exact ⟨h.shared, h.keyed, h.loaded⟩
  all_goals exact h.withTypes _ rfl fun u hu => .inl hu

theorem run (h : k.Consistent) {k' : Work} (hrun : k.Run k') : k'.Consistent := by
  induction hrun with
  | refl => exact h
  | tail _ hstep ih => exact ih.step hstep

end Consistent

/-! ### Reachable sessions -/

/-- The sessions that can arise. -/
inductive Reachable : Work → Prop
  /-- A session starts with the units of others, if any. -/
  | start (settings : Settings) (backend : Backend) (inline : InlineMacros) (world : World)
      (hshared : world.shared.Keyed) (hown : ∀ units, backend = .own units → units.Keyed) :
    Reachable ⟨{ Session.start settings backend with inline }, world⟩
  /-- Typing and building go on step by step. -/
  | step {k k' : Work} (h : Reachable k) (hstep : Step k k') : Reachable k'
  /-- Other uses of a session leave its types, definitions and units alone. -/
  | aside {k : Work} (h : Reachable k) (session : Session)
      (htypes : session.types = k.session.types)
      (hdefinitions : session.definitions = k.session.definitions)
      (hbackend : session.backend = k.session.backend) : Reachable { k with session }
  /-- Others change files, print, and load units of their own. -/
  | world {k : Work} (h : Reachable k) (world : World) (hkeyed : world.shared.Keyed)
      (hgrows : k.world.shared.Grows world.shared) : Reachable { k with world }

namespace Reachable

variable {k : Work}

theorem run (h : k.Reachable) {k' : Work} (hrun : k.Run k') : k'.Reachable := by
  induction hrun with
  | refl => exact h
  | tail _ hstep ih => exact ih.step hstep

/-- **Invariant.** The unit of every macro that can be called is loaded under its name. -/
theorem consistent (h : k.Reachable) : k.Consistent := by
  induction h with
  | start settings backend inline world hshared hown =>
    refine ⟨hshared, ?_, fun u hu => ?_⟩
    · cases backend with
      | own units => exact hown units rfl
      | shared => exact hshared
      | rejecting => exact Namespace.keyed_empty
    · have hnone := TypeRegistry.units_initial settings.scriptType
      exact absurd (hnone ▸ hu) List.not_mem_nil
  | step _ hstep ih => exact ih.step hstep
  | aside _ session htypes _ hbackend ih =>
    exact ih.withTypes session hbackend fun u hu => .inl (htypes ▸ hu)
  | @world k _ world hkeyed hgrows ih =>
    obtain ⟨session, old⟩ := k
    cases hb : session.backend with
    | own _ =>
      exact ⟨hkeyed, by simpa only [units, hb] using ih.keyed,
        by simpa only [units, hb] using ih.loaded⟩
    | shared =>
      have hloaded := ih.loaded
      simp only [units, hb] at hloaded
      exact ⟨hkeyed, by simpa only [units, hb] using hkeyed, fun u hu => by
        simpa only [units, hb] using hgrows _ _ (hloaded u hu)⟩
    | rejecting =>
      exact ⟨hkeyed, by simpa only [units, hb] using ih.keyed,
        by simpa only [units, hb] using ih.loaded⟩

/-- Files may change. -/
theorem withFiles (h : k.Reachable) (files : Files) :
    Reachable { k with world := { k.world with files } } :=
  h.world _ h.consistent.shared (.refl _)

/-- Typing reaches reachable sessions, cut off or not. -/
theorem inferWithin {t : Typing} (h : t.work.Reachable) (n : Nat) (scope : Scope)
    (tree : Node) : (TypeM.last (Typer.inferWithin n scope tree t)).work.Reachable :=
  h.run (Typer.runs_inferWithin n scope tree t)

/-- Building reaches reachable sessions, cut off or not. -/
theorem require {t : Typing} (h : t.work.Reachable) (n id : Nat) :
    (TypeM.last (Typer.require n id t)).work.Reachable :=
  h.run (Typer.runs_require n id t)

/-- Compiling reaches reachable sessions, cut off or not. -/
theorem reached (h : k.Reachable) (n : Nat) (source text : String) :
    (k.reached n source text).Reachable := by
  have henter : (k.enter source).Reachable := h.aside _ rfl rfl rfl
  rcases k.compileWithin_cases source text with ⟨d, hd⟩ | ⟨markers, scope, tree, hrun⟩
  · rw [Work.reached, hd]
    exact henter
  · rw [Work.reached, hrun]
    have hinfer := inferWithin (t := { work := k.enter source }) henter n scope tree
    revert hinfer
    rcases Typer.inferWithin n scope tree { work := k.enter source } with t | ⟨p, t⟩
    · exact id
    · intro hinfer
      let c : Compilation := {
        program := p.1
        errors := markers ++ t.errors
        warnings := t.work.session.warnings.drop (k.enter source).session.warnings.length
        expansions := t.work.session.expansions.drop (k.enter source).session.expansions.length }
      obtain ⟨⟨files, hfiles⟩, -⟩ := finish_cases t.work c
      show (t.work.finish c).2.Reachable
      rw [hfiles]
      exact hinfer.withFiles files

end Reachable

end Work

end Quasiquote
