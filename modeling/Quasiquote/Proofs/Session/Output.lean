import Quasiquote.Proofs.Session.Numbering
import Quasiquote.Proofs.Session.Persistence
import Quasiquote.Proofs.Session.Settling

namespace Quasiquote

/-!
# Output — descriptors and the units that they record

A session records the units of its own macros, whose files it writes beside its descriptors.
With the descriptors that it imports it takes over records of units that stay where they are,
loaded or in other directories.

* `Work.Owns`, `Work.Describes`, `Work.Supplies` — where units come from;
* `Work.Move.supplies_cases`, `Work.Move.recorded_cases` — what a move adds;
* `Work.Traced`, `Work.Traced.move` — the invariant and its step;
* `Work.Writes.self_contained` — the records of all descriptors that a session has written.
-/

namespace Work

/-! ### Where units come from -/

/-- Whether a unit is that of a definition. -/
def Owns (k : Work) (unit : String) : Prop :=
  ∃ id d, k.session.definition? id = some d ∧ d.unit = some unit

/-- Whether a descriptor that types are imported from records a unit. -/
def Describes (k : Work) (unit : String) : Prop :=
  ∃ dir ∈ k.session.settings.classpath, ∃ type text d,
    k.world.files.text? (Path.ofText (Descriptor.pathIn dir type)) = some text ∧
      Descriptor.decode? text = some d ∧ ∃ r ∈ d.macros, r.unit = unit

/-- Whether a unit is loaded, or can be read from a file where units are loaded from. -/
def Supplies (k : Work) (unit : String) : Prop :=
  (k.units.get? unit).isSome = true ∨ ∃ dir ∈ k.session.settings.classpath, k.HasUnit dir unit

variable {k k' : Work} {unit : String}

theorem Builds.owns {id : Nat} (h : k.Builds id unit) : k.Owns unit := by
  obtain ⟨d, hd, hunit, -⟩ := h
  exact ⟨id, d, hd, hunit⟩

/-- Whether a directory has a file of a unit depends on the text of one file. -/
theorem hasUnit_congr {root : String}
    (h : k'.world.files.text? (Path.ofText (unitPath root unit)) =
      k.world.files.text? (Path.ofText (unitPath root unit))) :
    k'.HasUnit root unit ↔ k.HasUnit root unit := by
  rw [HasUnit, h]
  rfl

namespace Supplies

/-- Looking a unit up supplies no other one. -/
theorem of_resolveUnit {other : String}
    (h : ((SessionM.resolveUnit other).run k).2.Supplies unit) : k.Supplies unit := by
  rcases SessionM.withUnits_cases other (fun units k =>
    units.resolve k.world.files k.session.settings.classpath other) k with
    ⟨e, hrun⟩ | ⟨u, units, haccepts, hresolve, hrun⟩
  · rwa [SessionM.resolveUnit, hrun] at h
  · rw [SessionM.resolveUnit, hrun] at h
    rcases h with hloaded | ⟨dir, hdir, hfile⟩
    · rw [units_withUnits _ _ haccepts] at hloaded
      by_cases hname : unit = other
      · -- the unit was loaded before, or it was read from a file just now
        subst hname
        rcases Namespace.resolve_ok hresolve with ⟨rfl, -⟩ | ⟨text, v, -, htext, hv, -⟩
        · exact .inl hloaded
        · obtain ⟨dir, hdir, htext⟩ := List.exists_of_findSome?_eq_some htext
          exact .inr ⟨dir, hdir, text, v, htext, hv⟩
      · rw [Namespace.get?_resolve_of_ne hresolve hname] at hloaded
        exact .inl hloaded
    · rw [settings_withUnits] at hdir
      exact .inr ⟨dir, hdir, (hasUnit_congr (by rw [files_withUnits])).1 hfile⟩

theorem of_resolveAll {rs : List MacroRecord}
    (h : ((SessionM.resolveAll rs).run k).2.Supplies unit) : k.Supplies unit := by
  induction rs generalizing k with
  | nil => exact h
  | cons r rs ih =>
    have hfirst := @of_resolveUnit k unit r.unit
    simp only [SessionM.resolveAll, run_bind_apply] at h
    revert hfirst h
    rcases (SessionM.resolveUnit r.unit).run k with ⟨e | u, k₁⟩
    · exact id
    · have hrest := @ih k₁
      dsimp only
      revert hrest
      rcases (SessionM.resolveAll rs).run k₁ with ⟨e | us, k₂⟩
      all_goals exact fun hrest hfirst h => hfirst (hrest h)

/-- Importing a type supplies no unit. -/
theorem of_importType {name : String}
    (h : ((SessionM.importType name).run k).2.Supplies unit) : k.Supplies unit := by
  rw [SessionM.importType_run] at h
  revert h
  cases Descriptor.find k.world.files name k.session.settings.classpath with
  | error e => exact id
  | ok found =>
    cases found with
    | none => exact id
    | some d =>
      have hall := @of_resolveAll k unit d.macros
      revert hall
      dsimp only
      rcases (SessionM.resolveAll d.macros).run k with ⟨e | macros, k'⟩
      all_goals exact id

end Supplies

/-- The records of an imported type are those of a descriptor, and their units are supplied. -/
theorem Consistent.recorded_importType (hk : k.Consistent) {name : String}
    (h : unit ∈ ((SessionM.importType name).run k).2.session.types.recorded) :
    unit ∈ k.session.types.recorded ∨ k.Describes unit ∧ k.Supplies unit := by
  rw [SessionM.importType_run] at h
  revert h
  cases hfind : Descriptor.find k.world.files name k.session.settings.classpath with
  | error e => exact .inl
  | ok found =>
    cases found with
    | none => exact .inl
    | some d =>
      obtain ⟨dir, hdir, text, htext, hdecode⟩ := Descriptor.exists_of_find hfind
      -- all units of the descriptor are looked up before the type is installed
      have hrecords := SessionM.map_fst_resolveAll d.macros k
      have hnames (macros : List (MacroRecord × LoadedUnit)) :=
        @Consistent.name_resolveAll k hk d.macros macros
      obtain ⟨-, -, hloaded⟩ := hk.resolveAll d.macros
      have hsupplied := @Supplies.of_resolveAll k unit d.macros
      obtain ⟨units, hsame⟩ := SessionM.keeps_resolveAll d.macros k
      revert hrecords hnames hloaded hsupplied hsame
      dsimp only
      rcases (SessionM.resolveAll d.macros).run k with ⟨e | macros, k'⟩
      · rintro - - - - rfl h
        exact .inl (by simpa using h)
      · rintro hrecords hnames hloaded hsupplied rfl h
        rcases TypeRegistry.mem_recorded_install h with h | h
        · rw [OwnerType.recorded_ofDescriptor] at h
          obtain ⟨r, hr, rfl⟩ := List.mem_map.1 h
          refine .inr ⟨⟨dir, hdir, name, text, d, htext, hdecode, r, hr, rfl⟩, hsupplied (.inl ?_)⟩
          rw [← hrecords macros rfl] at hr
          obtain ⟨p, hp, rfl⟩ := List.mem_map.1 hr
          have hget := hloaded macros rfl p hp
          rw [hnames macros rfl p hp] at hget
          exact Option.isSome_iff_exists.2 ⟨p.2, hget⟩
        · exact .inl (by simpa using h)

namespace Move

/-! ### What moves add -/

theorem names (h : k.Move k') : k.Names k' := by
  rcases h.definitions_cases with ⟨hcounter, hsame | ⟨d, hd, -, hmet⟩ | ⟨id, _, f, -, hchanged, hf⟩⟩ |
    hbegun
  · exact .inl ⟨Nat.le_of_eq hcounter.symm, .of_definitions hsame⟩
  · exact .inl ⟨Nat.le_of_eq hcounter.symm, .of_meet hmet hd⟩
  · exact .inl ⟨Nat.le_of_eq hcounter.symm, .of_modify hchanged fun d => ⟨(hf d).1, (hf d).2.1⟩⟩
  · exact .inr hbegun

/-- The only unit that a move supplies is the one of a definition that is being built. -/
theorem supplies_cases (h : k.Move k') (hunit : k'.Supplies unit) :
    k.Supplies unit ∨ ∃ id, k.Builds id unit := by
  cases h
  case importType name => exact .inl hunit.of_importType
  case openClass name superclass =>
    exact .inl (opened_of (P := fun k' => k'.Supplies unit → k.Supplies unit) name superclass id
      Supplies.of_importType (fun _ _ h => h) hunit)
  case load id own text hbuilds files hfiles =>
    rcases SessionM.loadUnit_cases own files k with ⟨e, hrun⟩ | ⟨u, units, ha, hload, -, hrun⟩
    · rw [hrun] at hunit
      exact .inl hunit
    · rw [hrun] at hunit
      by_cases hname : unit = own
      · exact .inr ⟨id, hname ▸ hbuilds⟩
      · refine .inl (hunit.imp (fun hloaded => ?_) fun ⟨dir, hdir, hfile⟩ => ⟨dir, ?_, ?_⟩)
        · rwa [units_withUnits _ _ ha, Namespace.get?_load_of_ne hfiles hload hname] at hloaded
        · rwa [settings_withUnits] at hdir
        · exact (hasUnit_congr (by rw [files_withUnits])).1 hfile
  case register =>
    rw [Typer.registerMacro_run] at hunit
    split at hunit
    · exact .inl hunit
    · exact .inl hunit
  case write id own root text hbuilds hroot hnew u hread files hwritten hsame =>
    rcases hunit with hloaded | ⟨dir, hdir, text', u', htext', hread'⟩
    · exact .inl (.inl hloaded)
    · by_cases hpath : Path.ofText (unitPath dir unit) = Path.ofText (unitPath root own)
      · -- the text that is read for two names has both of them
        have htext' : files.text? (Path.ofText (unitPath dir unit)) = some text' := htext'
        rw [hpath, hwritten] at htext'
        cases htext'
        have hname := Namespace.eq_of_decode hread' hread
        exact .inr ⟨id, hname ▸ hbuilds⟩
      · exact .inl (.inr ⟨dir, hdir, text', u', (hsame _ hpath).symm.trans htext', hread'⟩)
  case unwritten files hsame =>
    exact .inl (hunit.imp id fun ⟨dir, hdir, hfile⟩ => ⟨dir, hdir, (hasUnit_congr (hsame _)).1 hfile⟩)
  all_goals exact .inl hunit

/-- The only units that a move records are the one of a definition that is being built, and those
    of a type that is imported. -/
theorem recorded_cases (h : k.Move k') (hk : k.Consistent) (hunit : unit ∈ k'.session.types.recorded) :
    unit ∈ k.session.types.recorded ∨ (∃ id, k.Builds id unit) ∨ k.Describes unit ∧ k.Supplies unit := by
  cases h
  case declare => exact .inl (TypeRegistry.mem_recorded_define hunit)
  case importType name => exact (hk.recorded_importType hunit).imp_right .inr
  case openClass name superclass =>
    refine (opened_of (P := fun k' => unit ∈ k'.session.types.recorded →
      unit ∈ k.session.types.recorded ∨ k.Describes unit ∧ k.Supplies unit) name superclass .inl
      hk.recorded_importType (fun _ _ h hunit => ?_) hunit).imp_right .inr
    exact h (TypeRegistry.mem_recorded_openType hunit)
  case load own _ _ files _ =>
    obtain ⟨units, h⟩ := SessionM.keeps_loadUnit own files k
    rw [h, types_withUnits] at hunit
    exact .inl hunit
  case register id own hbuilds d loaded hloaded =>
    rw [Typer.registerMacro_run] at hunit
    split at hunit
    · exact .inl hunit
    · rcases TypeRegistry.mem_recorded_modify hunit with hunit | ⟨t, ht, hunit⟩
      · exact .inl hunit
      · rcases Typer.mem_recorded_withMacro _ _ _ _ hunit with rfl | hunit
        · exact .inr (.inl ⟨id, hbuilds⟩)
        · exact .inl (TypeRegistry.mem_recorded_of_get? ht hunit)
  all_goals exact .inl hunit

/-- A definition is as it was, it has been met, or it is no longer open; it is resolved only when the
    file of its unit is there. -/
theorem definition_cases (h : k.Move k') {id : Nat} {d : MacroDefinition}
    (hd : k'.session.definition? id = some d) :
    k.session.definition? id = some d ∨ (d.state = .unresolved ∧ d.unit = none) ∨
    d.state ≠ .unresolved ∧ (d.state = .resolved → ∀ unit root, d.unit = some unit →
      k.session.settings.destination = some root → k'.HasUnit root unit) := by
  have hd : k'.session.definitions[id]? = some d := hd
  rcases h.definitions_cases with
    ⟨-, hsame | ⟨d', hnone, hopen, hmet⟩ | ⟨other, own, f, ⟨d', hd', hown, -⟩, hchanged, hf⟩⟩ |
    ⟨other, d', hd', -, rfl⟩
  · rw [hsame] at hd
    exact .inl hd
  · rw [hmet, List.getElem?_append] at hd
    split at hd
    · exact .inl hd
    · obtain rfl := List.mem_singleton.1 (List.mem_of_getElem? hd)
      exact .inr (.inl ⟨hopen, hnone⟩)
  · -- a definition that is being built goes on
    rcases Session.definition?_modify_cases hchanged hd with ⟨rfl, d₀, hd₀, rfl⟩ | ⟨-, hd⟩
    · obtain rfl : d' = d₀ := Option.some.inj (hd'.symm.trans hd₀)
      obtain ⟨hkept, -, hclosed, hfile⟩ := hf d'
      refine .inr (.inr ⟨hclosed, fun hresolved unit root hunit hroot => ?_⟩)
      obtain rfl : own = unit := Option.some.inj (hown.symm.trans (hkept.symm.trans hunit))
      exact hfile hresolved root hroot
    · exact .inl hd
  · have hchanged : ((k.noting other .extending).naming other d'.owner).session.definitions =
        k.session.definitions.modify other _ := List.modify_modify_eq ..
    rcases Session.definition?_modify_cases hchanged hd with ⟨-, d₀, -, rfl⟩ | ⟨-, hd⟩
    · exact .inr (.inr ⟨nofun, nofun⟩)
    · exact .inl hd

/-- Definitions keep the units that they have, as open ones have none. -/
theorem owns (h : k.Move k') (hunnamed : ∀ id d, k.session.definition? id = some d →
    d.state = .unresolved → d.unit = none) (hunit : k.Owns unit) : k'.Owns unit := by
  obtain ⟨id, d, hd, hunit⟩ := hunit
  have hd : k.session.definitions[id]? = some d := hd
  rcases h.definitions_cases with ⟨-, hsame | ⟨d', -, -, hmet⟩ | ⟨other, _, f, -, hchanged, hf⟩⟩ |
    ⟨other, d', hd', hopen, rfl⟩
  · exact ⟨id, d, by rwa [Session.definition?, hsame], hunit⟩
  · refine ⟨id, d, ?_, hunit⟩
    have hlt := (List.getElem?_eq_some_iff.1 hd).1
    rw [Session.definition?, hmet, List.getElem?_append_left hlt, hd]
  · by_cases hid : id = other
    · subst hid
      exact ⟨id, f d, Session.definition?_modify_self hchanged hd, (hf d).1.trans hunit⟩
    · exact ⟨id, d, (Session.definition?_modify_ne hchanged hid).trans hd, hunit⟩
  · by_cases hid : id = other
    · -- an open definition has no unit
      subst hid
      obtain rfl : d' = d := Option.some.inj (hd'.symm.trans hd)
      rw [hunnamed id d' hd' hopen] at hunit
      cases hunit
    · have hchanged : ((k.noting other .extending).naming other d'.owner).session.definitions =
          k.session.definitions.modify other _ := List.modify_modify_eq ..
      exact ⟨id, d, (Session.definition?_modify_ne hchanged hid).trans hd, hunit⟩

/-- The file of the unit of a resolved definition stays, for files are written for units of other
    numbers. -/
theorem hasUnit (h : k.Move k') (hnumbering : k.Numbering) {id : Nat} {d : MacroDefinition}
    {root : String} (hd : k.session.definition? id = some d) (hunit : d.unit = some unit)
    (hs : d.state = .resolved) (hfile : k.HasUnit root unit) : k'.HasUnit root unit := by
  rcases h.files_cases with hsame | ⟨other, own, root', text, ⟨d', hd', hown, hbuilding⟩, -, -, -, -, hsame⟩
  · exact (hasUnit_congr (hsame _)).2 hfile
  · -- the definition whose file is written is still being built, so it is another one
    obtain ⟨n, -, hn⟩ := hnumbering.numbered hd hunit
    obtain ⟨m, -, hm⟩ := hnumbering.numbered hd' hown
    have hne : n ≠ m := by
      rintro rfl
      obtain rfl := hnumbering.distinct hd hd' hunit hown hn hm
      obtain rfl : d = d' := Option.some.inj (hd.symm.trans hd')
      rw [hs] at hbuilding
      cases hbuilding
    exact (hasUnit_congr (hsame _ (hn.path_ne hm hne root root'))).2 hfile

end Move

/-! ### The invariant -/

/-- Whether a unit is that of a definition, or came with a descriptor when the session started in
    `k₀` and was there itself. -/
def Accounted (k₀ k : Work) (unit : String) : Prop :=
  k.Owns unit ∨ k₀.Describes unit ∧ k₀.Supplies unit

/-- Whether everything that a session which started in `k₀` names or has written is accounted
    for. -/
structure Traced (k₀ k : Work) : Prop where
  settings : k.session.settings = k₀.session.settings
  numbering : k.Numbering
  unnamed : ∀ id d, k.session.definition? id = some d → d.state = .unresolved → d.unit = none
  written : ∀ id d unit root, k.session.definition? id = some d → d.state = .resolved →
    d.unit = some unit → k₀.session.settings.destination = some root → k.HasUnit root unit
  supplied : ∀ unit, k.Supplies unit → k.Owns unit ∨ k₀.Supplies unit
  described : ∀ unit, k.Describes unit → k₀.Describes unit ∨ k₀.Accounted k unit
  recorded : ∀ unit ∈ k.session.types.recorded, k₀.Accounted k unit

namespace Traced

variable {k₀ : Work}

/-- **Step.** A move keeps everything accounted for. -/
theorem move (h : k₀.Traced k) (hk : k.Consistent) (hmove : k.Move k') :
    k₀.Traced k' ∧ ∀ unit, k.Owns unit → k'.Owns unit := by
  have howns (unit : String) (hunit : k.Owns unit) : k'.Owns unit := hmove.owns h.unnamed hunit
  have haccounted (unit : String) (hunit : k₀.Accounted k unit) : k₀.Accounted k' unit :=
    hunit.imp_left (howns unit)
  refine ⟨⟨hmove.settings.trans h.settings, h.numbering.names hmove.names, ?_, ?_, ?_, ?_, ?_⟩, howns⟩
  · intro id d hd hs
    rcases hmove.definition_cases hd with hold | ⟨-, hnone⟩ | ⟨hclosed, -⟩
    · exact h.unnamed id d hold hs
    · exact hnone
    · exact absurd hs hclosed
  · intro id d unit root hd hs hunit hroot
    rcases hmove.definition_cases hd with hold | ⟨hopen, -⟩ | ⟨-, hfile⟩
    · exact hmove.hasUnit h.numbering hold hunit hs (h.written id d unit root hold hs hunit hroot)
    · rw [hs] at hopen
      cases hopen
    · exact hfile hs unit root hunit (by rwa [h.settings])
  · intro unit hunit
    rcases hmove.supplies_cases hunit with hunit | ⟨id, hbuilds⟩
    · exact (h.supplied unit hunit).imp_left (howns unit)
    · exact .inl (howns unit hbuilds.owns)
  · rintro unit ⟨dir, hdir, type, text, d, htext, hrest⟩
    rw [hmove.settings] at hdir
    rw [hmove.text?_pathIn] at htext
    exact (h.described unit ⟨dir, hdir, type, text, d, htext, hrest⟩).imp_right (haccounted unit)
  · intro unit hunit
    rcases hmove.recorded_cases hk hunit with hunit | ⟨id, hbuilds⟩ | ⟨hdescribes, hsupplies⟩
    · exact haccounted unit (h.recorded unit hunit)
    · exact .inl (howns unit hbuilds.owns)
    · -- the record comes from a descriptor that was there, or one that the session has written
      rcases h.described unit hdescribes with hold | hunit
      · exact (h.supplied unit hsupplies).imp (howns unit) fun hsupplied => ⟨hold, hsupplied⟩
      · exact haccounted unit hunit

theorem moves (h : k₀.Traced k) (hk : k.Reachable) (hmoves : k.Moves k') :
    k₀.Traced k' ∧ ∀ unit, k.Owns unit → k'.Owns unit := by
  induction hmoves with
  | refl => exact ⟨h, fun _ => id⟩
  | tail hmoves hmove ih =>
    obtain ⟨htraced, howns⟩ := ih
    have hstep := htraced.move (Moves.reachable hmoves hk).consistent hmove
    exact ⟨hstep.1, fun unit hunit => hstep.2 unit (howns unit hunit)⟩

/-- The descriptors that are written at the end are accounted for. -/
theorem describing (h : k₀.Traced k) : k₀.Traced k.describing := by
  have hfiles {root unit : String} : k.describing.HasUnit root unit ↔ k.HasUnit root unit :=
    hasUnit_congr (k.text?_describing_unitPath root unit)
  have hwritten (q : Path) := k.text?_describing q
  obtain ⟨files, hsame⟩ := k.exists_describing
  rw [hsame] at hfiles hwritten ⊢
  refine ⟨h.settings, h.numbering.kept (Nat.le_refl _) (.of_definitions rfl), h.unnamed, ?_, ?_, ?_,
    h.recorded⟩
  · intro id d unit root hd hs hunit hroot
    exact hfiles.2 (h.written id d unit root hd hs hunit hroot)
  · intro unit hunit
    exact h.supplied unit (hunit.imp_right fun ⟨dir, hdir, hfile⟩ => ⟨dir, hdir, hfiles.1 hfile⟩)
  · rintro unit ⟨dir, hdir, type, text, d, htext, hdecode, r, hr, hunit⟩
    rcases hwritten (Path.ofText (Descriptor.pathIn dir type)) with hold | ⟨-, -, d', hd', -, hnew⟩
    · rw [hold] at htext
      exact h.described unit ⟨dir, hdir, type, text, d, htext, hdecode, r, hr, hunit⟩
    · rw [hnew] at htext
      cases htext
      obtain rfl := Descriptor.eq_of_decode?_encode hdecode
      exact .inr (h.recorded unit (hunit ▸ TypeRegistry.mem_recorded_of_mem hd' hr))

/-- At its start a session has nothing of its own. -/
theorem start (settings : Settings) (backend : Backend) (inline : InlineMacros) (world : World) :
    Traced ⟨{ Session.start settings backend with inline }, world⟩
      ⟨{ Session.start settings backend with inline }, world⟩ := by
  have hnone (id : Nat) (d : MacroDefinition) :
      ¬ ({ Session.start settings backend with inline } : Session).definition? id = some d := nofun
  refine ⟨rfl, ⟨fun hd => absurd hd (hnone _ _), fun hd => absurd hd (hnone _ _)⟩,
    fun id d hd => absurd hd (hnone id d), fun id d _ _ hd => absurd hd (hnone id d),
    fun _ h => .inr h, fun _ h => .inl h, fun unit h => ?_⟩
  have hempty := TypeRegistry.recorded_initial settings.scriptType
  exact absurd (hempty ▸ h) List.not_mem_nil

/-- Which source is compiled makes no difference. -/
theorem enter (h : k₀.Traced k) (source : String) : k₀.Traced (k.enter source) :=
  ⟨h.settings, h.numbering.kept (Nat.le_refl _) (.of_definitions rfl), h.unnamed, h.written,
    h.supplied, h.described, h.recorded⟩

/-- Compiling keeps everything accounted for. -/
theorem compileWithin (h : k₀.Traced k) (hk : k.Reachable) {n : Nat} {source text : String}
    {r : Except Diagnostic Compilation} (hrun : k.compileWithin n source text = .ok (r, k')) :
    k₀.Traced k' ∧ ∀ unit, k.Owns unit → k'.Owns unit := by
  obtain ⟨typed, hmoves, hreached⟩ := reached_cases hk n source text
  obtain ⟨htyped, howns⟩ := (h.enter source).moves (hk.aside _ rfl rfl rfl) hmoves
  rw [reached_of_ok hrun] at hreached
  rcases hreached with rfl | rfl
  · exact ⟨htyped, howns⟩
  · refine ⟨htyped.describing, fun unit hunit => ?_⟩
    obtain ⟨files, hsame⟩ := typed.exists_describing
    rw [hsame]
    exact howns unit hunit

end Traced

/-! ### Compilations one after the other -/

/-- A session that started in `k₀` compiles sources one after the other.  The descriptors are
    those that its types have after each of them. -/
inductive Writes (k₀ : Work) : List Descriptor → Work → Prop
  | start : Writes k₀ [] k₀
  | compile {ds : List Descriptor} {k k' : Work} (h : Writes k₀ ds k) (nesting : Nat)
      (source text : String) {r : Except Diagnostic Compilation}
      (hrun : k.compileWithin nesting source text = .ok (r, k')) :
    Writes k₀ (ds ++ k'.session.types.descriptors) k'

namespace Writes

variable {k₀ : Work} {ds : List Descriptor}

theorem reachable (h : Writes k₀ ds k) (h₀ : k₀.Reachable) : k.Reachable := by
  induction h with
  | start => exact h₀
  | compile _ n source text hrun ih =>
    have hreached := ih.reached n source text
    rwa [reached_of_ok hrun] at hreached

theorem idle (h : Writes k₀ ds k) (h₀ : k₀.Idle) : k.Idle := by
  induction h with
  | start => exact h₀
  | compile _ n source text hrun ih => exact ih.compile n source text hrun

/-- **Invariant.** The records of all descriptors are accounted for. -/
theorem traced (h : Writes k₀ ds k) (h₀ : k₀.Reachable) (hstart : k₀.Traced k₀) :
    k₀.Traced k ∧ ∀ d ∈ ds, ∀ r ∈ d.macros, k₀.Accounted k r.unit := by
  induction h with
  | start => exact ⟨hstart, nofun⟩
  | compile h n source text hrun ih =>
    obtain ⟨htraced, howns⟩ := ih.1.compileWithin (h.reachable h₀) hrun
    refine ⟨htraced, fun d hd r hr => ?_⟩
    rcases List.mem_append.1 hd with hd | hd
    · exact (ih.2 d hd r hr).imp_left (howns r.unit)
    · exact htraced.recorded r.unit (TypeRegistry.mem_recorded_of_mem hd hr)

/-- A session that reads back keeps the files of all units. -/
theorem hasUnit (h : Writes k₀ ds k) (h₀ : k₀.Reachable) (hstart : k₀.Traced k₀)
    (hback : k₀.ReadsBack) {root : String} (hfile : k₀.HasUnit root unit) : k.HasUnit root unit := by
  induction h with
  | start => exact hfile
  | @compile ds k k' h n source text r hrun ih =>
    obtain ⟨unitText, u, htext, hread⟩ := ih
    have hsettings := (h.traced h₀ hstart).1.settings
    have hreads : k.ReadsBack := fun root hroot => by
      rw [hsettings] at hroot ⊢
      exact hback root hroot
    have hkept := reached_keeps_unit (h.reachable h₀) hreads n source text htext
    rw [reached_of_ok hrun] at hkept
    exact ⟨unitText, u, hkept, hread⟩

/-- The text of the file of a descriptor is the old one, or that of a descriptor of the session. -/
theorem text?_pathIn (h : Writes k₀ ds k) (h₀ : k₀.Reachable) (dir type : String) :
    k.world.files.text? (Path.ofText (Descriptor.pathIn dir type)) =
      k₀.world.files.text? (Path.ofText (Descriptor.pathIn dir type)) ∨
    ∃ d ∈ ds, k.world.files.text? (Path.ofText (Descriptor.pathIn dir type)) = some d.encode := by
  generalize hq : Path.ofText (Descriptor.pathIn dir type) = q
  induction h with
  | start => exact .inl rfl
  | @compile ds k k' h n source text r hrun ih =>
    obtain ⟨typed, hmoves, hreached⟩ := reached_cases (h.reachable h₀) n source text
    rw [reached_of_ok hrun] at hreached
    have hold : typed.world.files.text? q = k.world.files.text? q :=
      hq ▸ Moves.text?_pathIn hmoves dir type
    have hearlier (hsame : k'.world.files.text? q = typed.world.files.text? q) :
        k'.world.files.text? q = k₀.world.files.text? q ∨
          ∃ d ∈ ds ++ k'.session.types.descriptors, k'.world.files.text? q = some d.encode := by
      rw [hsame, hold]
      exact ih.imp_right fun ⟨d, hd, hnew⟩ => ⟨d, List.mem_append_left _ hd, hnew⟩
    rcases hreached with rfl | rfl
    · exact hearlier rfl
    · rcases typed.text?_describing q with hsame | ⟨_, -, d, hd, -, hnew⟩
      · exact hearlier hsame
      · obtain ⟨files, hsame⟩ := typed.exists_describing
        refine .inr ⟨d, List.mem_append_right _ ?_, hnew⟩
        rwa [hsame]

/-- **Theorem.** After each compilation of a session with a destination, the file of a descriptor
    there is as it was when the session started, or it is one of those that the session writes.
    Each record of such a descriptor names a unit that can be read from its file there; or one that
    came with a descriptor, and was loaded or could be read from another directory when the session
    started; or that of a definition that has failed. -/
theorem self_contained {settings : Settings} {backend : Backend} {inline : InlineMacros}
    {world : World} (hshared : world.shared.Keyed)
    (hown : ∀ units, backend = .own units → units.Keyed)
    (hstart : k₀ = ⟨{ Session.start settings backend with inline }, world⟩) (h : Writes k₀ ds k)
    {root : String} (hroot : settings.destination = some root) :
    (∀ type, k.world.files.text? (Path.ofText (Descriptor.pathIn root type)) =
        world.files.text? (Path.ofText (Descriptor.pathIn root type)) ∨
      ∃ d ∈ ds, k.world.files.text? (Path.ofText (Descriptor.pathIn root type)) = some d.encode) ∧
    ∀ d ∈ ds, ∀ r ∈ d.macros,
      k.HasUnit root r.unit ∨
      (k₀.Describes r.unit ∧ ((k₀.units.get? r.unit).isSome = true ∨
        ∃ dir ∈ settings.classpath, dir ≠ root ∧ k₀.HasUnit dir r.unit)) ∨
      ∃ id m, k.session.definition? id = some m ∧ m.unit = some r.unit ∧ m.state = .failed := by
  subst hstart
  have h₀ := Reachable.start settings backend inline world hshared hown
  have hfresh := Traced.start settings backend inline world
  obtain ⟨htraced, haccounted⟩ := h.traced h₀ hfresh
  refine ⟨h.text?_pathIn h₀ root, fun d hd r hr => ?_⟩
  rcases haccounted d hd r hr with ⟨id, m, hm, hunit⟩ | ⟨hdescribes, hsupplies⟩
  · -- a definition of a session at rest is resolved or has failed
    have hrest := (h.idle (.start settings backend inline world)).atRest
    rcases hrest.definitions m (List.mem_of_getElem? hm) with hs | hs
    · exact .inl (htraced.written id m r.unit root hm hs hunit hroot)
    · exact .inr (.inr ⟨id, m, hm, hunit, hs⟩)
  · rcases hsupplies with hloaded | ⟨dir, hdir, hfile⟩
    · exact .inr (.inl ⟨hdescribes, .inl hloaded⟩)
    · by_cases hsame : dir = root
      · -- the destination is on the classpath then, so the session overwrites no unit there
        subst hsame
        refine .inl (h.hasUnit h₀ hfresh (fun root' hroot' => ?_) hfile)
        obtain rfl : dir = root' := Option.some.inj (hroot.symm.trans hroot')
        exact hdir
      · exact .inr (.inl ⟨hdescribes, .inr ⟨dir, hdir, hsame, hfile⟩⟩)

/-! ### A type of another directory -/

/-- A descriptor of a type with one macro. -/
def described : Descriptor :=
  { name := "A", superclass := some rootType, macros := [⟨"m", ⟨[]⟩, "kiln.macros.A$Extension1"⟩] }

/-- A session that writes to one directory and finds the descriptor in another one.  The unit of the
    macro is loaded. -/
def importing : Work :=
  ⟨Session.start { classpath := ["lib"], destination := some "out" } .shared,
    { files := ({} : Files).set ["lib", "A.kdesc"] (.text described.encode)
      shared := NameMap.empty.insert "kiln.macros.A$Extension1" (.named "kiln.macros.A$Extension1") }⟩

/-- The session opens the class again, and writes the descriptor without the file of the unit. -/
theorem importing_writes : ∃ k, Writes importing ([] ++ k.session.types.descriptors) k ∧
    described ∈ k.session.types.descriptors ∧
    k.world.files.text? (Path.ofText (Descriptor.pathIn "out" "A")) = some described.encode ∧
    k.world.files.text? (Path.ofText (unitPath "out" "kiln.macros.A$Extension1")) = none := by
  have hview : (importing.compileWithin 0 "main" "class A; end").toOption.map
      (fun p => (p.2.session.types.descriptors.contains described,
        p.2.world.files.text? (Path.ofText (Descriptor.pathIn "out" "A")),
        p.2.world.files.text? (Path.ofText (unitPath "out" "kiln.macros.A$Extension1")))) =
      some (true, some described.encode, none) := by
    decide +kernel
  cases hrun : importing.compileWithin 0 "main" "class A; end" with
  | error k =>
    rw [hrun] at hview
    cases hview
  | ok p =>
    rw [hrun] at hview
    obtain ⟨hd, hview⟩ := Prod.mk.inj (Option.some.inj hview)
    obtain ⟨hwritten, hmissing⟩ := Prod.mk.inj hview
    exact ⟨p.2, Writes.start.compile 0 "main" "class A; end" hrun, by simpa using hd, hwritten, hmissing⟩

/-- The record of the type that is imported names a unit that is loaded. -/
theorem self_contained_import : ∃ ds k, Writes importing ds k ∧ described ∈ ds ∧
    ∀ r ∈ described.macros,
      k.HasUnit "out" r.unit ∨
      (importing.Describes r.unit ∧ ((importing.units.get? r.unit).isSome = true ∨
        ∃ dir ∈ ["lib"], dir ≠ "out" ∧ importing.HasUnit dir r.unit)) ∨
      ∃ id m, k.session.definition? id = some m ∧ m.unit = some r.unit ∧ m.state = .failed := by
  obtain ⟨k, hwrites, hd, -⟩ := importing_writes
  let settings : Settings := { classpath := ["lib"], destination := some "out" }
  have hkeyed : importing.world.shared.Keyed :=
    Namespace.keyed_empty.insert (.named "kiln.macros.A$Extension1")
  have hown (units : Namespace) (h : Backend.shared = .own units) : units.Keyed := by cases h
  have hstart : importing = ⟨{ Session.start settings .shared with inline := .builtins },
    importing.world⟩ := rfl
  have hroot : settings.destination = some "out" := rfl
  have hall := self_contained hkeyed hown hstart hwrites hroot
  exact ⟨_, k, hwrites, hd, hall.2 described hd⟩

/-- The descriptor of that type is new in the directory, and the file of the unit is missing. -/
theorem not_self_contained_import : ∃ ds k, Writes importing ds k ∧ described ∈ ds ∧
    importing.world.files.text? (Path.ofText (Descriptor.pathIn "out" "A")) = none ∧
    k.world.files.text? (Path.ofText (Descriptor.pathIn "out" "A")) = some described.encode ∧
    ∃ r ∈ described.macros, ¬ k.HasUnit "out" r.unit := by
  obtain ⟨k, hwrites, hd, hwritten, hmissing⟩ := importing_writes
  refine ⟨_, k, hwrites, hd, by decide +kernel, hwritten, _, List.mem_cons_self, ?_⟩
  rintro ⟨text, _, htext, -⟩
  rw [hmissing] at htext
  cases htext

end Writes

end Work

end Quasiquote
