import Quasiquote.Proofs.Macro.Marks
import Quasiquote.Proofs.Session.Output
import Quasiquote.Proofs.Session.Owners
import Quasiquote.Proofs.Session.Records

namespace Quasiquote

/-!
# Marks across sessions — entries without a block, written and read

The marks of a table are not written out with its descriptor, and a later session infers them.  It
does so rightly because every unit is the unit of one definition: two entries share a unit only if
one definition has made them.  A mark that is read was there.  A mark that was there is read unless
another macro has taken the place of the entry with the block.

* `TypeRegistry.Carries`, `Work.Steady` — steps that change no table, and no definition by much;
* `Work.Marks`, `Typer.marks_invariant` — the invariant, which typing and builds keep;
* `Work.Grown`, `Work.Grown.started`, `Work.Grown.compile` — the sessions in which a type has got
  all of its macros by definitions, here or in the sessions that it came from;
* `Work.Grown.marks_imported` — which marks a later session reads.
-/

namespace TypeRegistry

/-- Whether a type that has a descriptor has come from one with the same macros, or has none. -/
structure Carries (o : String) (r r' : TypeRegistry) : Prop where
  known : r'.get? o = none → r.get? o = none
  table : ∀ t', r'.get? o = some t' → t'.descriptor.isSome = true →
    (t'.Lockstep ∧ t'.macros.entries = []) ∨ ∃ t, r.get? o = some t ∧ t.descriptor.isSome = true ∧
      (t.Lockstep → t'.Lockstep) ∧ t'.macros = t.macros

namespace Carries

variable {o : String} {r r' : TypeRegistry}

theorem of_get? (h : r'.get? o = r.get? o) : Carries o r r' where
  known hnone := h.symm.trans hnone
  table t ht hd := .inr ⟨t, h.symm.trans ht, hd, id, rfl⟩

theorem define (r : TypeRegistry) (owner : String) (m : Method) :
    Carries o r (r.modify owner (·.define m)) := by
  by_cases howner : o = owner
  · subst howner
    have hget := get?_modify r o (·.define m) o
    rw [if_pos rfl] at hget
    refine ⟨fun hnone => ?_, fun t' ht' hd => ?_⟩
    · rw [hget] at hnone
      exact Option.map_eq_none_iff.1 hnone
    · rw [hget] at ht'
      obtain ⟨t, ht, rfl⟩ := Option.map_eq_some_iff.1 ht'
      exact .inr ⟨t, ht, by simpa [OwnerType.define] using hd, fun h => h.define m, rfl⟩
  · exact .of_get? (get?_modify_of_ne r _ howner)

theorem openType (r : TypeRegistry) (name : String) (superclass : Option String)
    (persistent : Bool) : Carries o r (r.openType name superclass persistent) := by
  have hget := get?_openType r name superclass persistent o
  by_cases hnew : o = name ∧ r.get? name = none
  · rw [if_pos hnew] at hget
    refine ⟨fun hnone => ?_, fun t' ht' hd => ?_⟩
    · rw [hget] at hnone
      cases hnone
    · rw [hget] at ht'
      cases ht'
      exact .inl ⟨.ofProgram name superclass persistent, rfl⟩
  · rw [if_neg hnew] at hget
    exact .of_get? hget

end Carries

end TypeRegistry

namespace Work

variable {o : String} {k k' : Work}

/-! ### Steps -/

/-- Whether definitions keep what they define and their units, and no build begins. -/
structure Steady (k k' : Work) : Prop where
  counter : k.session.counter ≤ k'.session.counter
  units : k.KeepsUnits k'
  stays : ∀ id d, k.session.definition? id = some d →
    ∃ d', k'.session.definition? id = some d' ∧ d'.spec = d.spec ∧ d'.owner = d.owner
  builds : ∀ id d', k'.session.definition? id = some d' → d'.state.isBuilding = true →
    ∃ d, k.session.definition? id = some d ∧ d.state.isBuilding = true ∧ d.spec = d'.spec ∧
      d.owner = d'.owner ∧ d.unit = d'.unit

namespace Steady

theorem of_definitions (hcounter : k.session.counter ≤ k'.session.counter)
    (h : k'.session.definitions = k.session.definitions) : k.Steady k' where
  counter := hcounter
  units := .of_definitions h
  stays id d hd := ⟨d, by rwa [Session.definition?, h], rfl, rfl⟩
  builds id d hd hbuilding := ⟨d, by rwa [Session.definition?, h] at hd, hbuilding, rfl, rfl, rfl⟩

/-- A definition that is met is not being built. -/
theorem meeting (k : Work) {d : MacroDefinition} (hstate : d.state = .unresolved)
    (hunit : d.unit = none) : k.Steady (k.meeting [d]) where
  counter := Nat.le_refl _
  units := .of_meet rfl hunit
  stays id d' hd' := ⟨d', (definition?_meeting_of_lt (List.getElem?_eq_some_iff.1 hd').1).trans hd',
    rfl, rfl⟩
  builds id d' hd' hbuilding := by
    rcases Nat.lt_or_ge id k.met with hlt | hge
    · exact ⟨d', definition?_meeting_of_lt hlt ▸ hd', hbuilding, rfl, rfl, rfl⟩
    · rw [List.mem_singleton.1 (mem_of_definition?_meeting hge hd'), hstate] at hbuilding
      cases hbuilding

/-- A definition that is being built goes on, or is concluded. -/
theorem modify {id : Nat} {d : MacroDefinition} {unit : String} (hbuild : k.BuildOf id d unit)
    {f : MacroDefinition → MacroDefinition}
    (hf : ∀ d, (f d).spec = d.spec ∧ (f d).owner = d.owner ∧ (f d).unit = d.unit) :
    k.Steady { k with session := k.session.modifyDefinition id f } where
  counter := Nat.le_refl _
  units := .of_modify rfl fun d => ⟨(hf d).2.2, (hf d).2.1⟩
  stays id' d' hd' := by
    by_cases hid : id' = id
    · subst hid
      exact ⟨f d', Session.definition?_modifyDefinition hd', (hf d').1, (hf d').2.1⟩
    · exact ⟨d', (Session.definition?_modify_ne rfl hid).trans hd', rfl, rfl⟩
  builds id' d' hd' hbuilding := by
    rcases Session.definition?_modify_cases (s := k.session) rfl hd' with
      ⟨rfl, d₀, hd₀, rfl⟩ | ⟨-, hd'⟩
    · obtain ⟨d₁, hd₁, -, -, -, hbuilding₁⟩ := hbuild
      obtain rfl : d₀ = d₁ := Option.some.inj (hd₀.symm.trans hd₁)
      exact ⟨d₀, hd₀, hbuilding₁, (hf d₀).1.symm, (hf d₀).2.1.symm, (hf d₀).2.2.symm⟩
    · exact ⟨d', hd', hbuilding, rfl, rfl, rfl⟩

end Steady

/-! ### The invariant -/

/-- Whether a definition of a type parts an entry from what completes it. -/
def Parts (k : Work) (o : String) (e : MacroEntry) : Prop :=
  ∃ d ∈ k.session.definitions, d.owner = o ∧ d.spec.Parts e

/-- Whether the marks of a type say what marks say, and a definition that is being built has made
    the entries of its unit. -/
structure MarkedIn (k : Work) (o : String) (t : OwnerType) : Prop where
  lockstep : t.Lockstep
  marked : MacroTable.Marked (k.Parts o) t.macros.entries
  building : ∀ id d, k.session.definition? id = some d → d.owner = o → d.state.isBuilding = true →
    ∀ e ∈ t.macros.entries, d.unit = some e.unit.name → e ∈ d.spec.entries e.unit

/-- Whether no descriptor of a type is found as long as the type is not known. -/
def Hidden (k : Work) (o : String) : Prop :=
  k.session.types.get? o = none →
    ∀ d, Descriptor.find k.world.files o k.session.settings.classpath ≠ .ok (some d)

/-- Whether a type is marked, and its descriptor is found under its own name, and not at all before
    the type is known. -/
structure Marks (o : String) (k : Work) : Prop where
  reachable : k.Reachable
  numbering : k.Numbering
  files : k.OwnFile o
  hidden : k.Hidden o
  table : ∀ t, k.session.types.get? o = some t → t.descriptor.isSome = true → k.MarkedIn o t

theorem Parts.steady {e : MacroEntry} (h : k.Parts o e) (hsteady : k.Steady k') :
    k'.Parts o e := by
  obtain ⟨d, hd, howner, hparts⟩ := h
  obtain ⟨id, hd⟩ := List.mem_iff_getElem?.1 hd
  obtain ⟨d', hd', hspec, howner'⟩ := hsteady.stays id d hd
  exact ⟨d', List.mem_of_getElem? hd', howner'.trans howner, hspec ▸ hparts⟩

namespace MarkedIn

variable {t t' : OwnerType}

/-- A type without macros. -/
theorem of_empty (hlockstep : t.Lockstep) (hempty : t.macros.entries = []) : k.MarkedIn o t where
  lockstep := hlockstep
  marked := hempty ▸ .nil
  building id d _ _ _ e he := by
    rw [hempty] at he
    cases he

theorem steady (h : k.MarkedIn o t) (hsteady : k.Steady k')
    (hlockstep : t.Lockstep → t'.Lockstep) (hmacros : t'.macros = t.macros) :
    k'.MarkedIn o t' where
  lockstep := hlockstep h.lockstep
  marked := by
    rw [hmacros]
    exact h.marked.mono fun e he => he.steady hsteady
  building id d' hd' howner hbuilding e he hunit := by
    obtain ⟨d, hd, hbuilding, hspec, howner', hunit'⟩ := hsteady.builds id d' hd' hbuilding
    rw [← hspec]
    exact h.building id d hd (howner'.trans howner) hbuilding e (hmacros ▸ he) (hunit'.trans hunit)

/-- The unit of an entry is recorded. -/
theorem present (h : k.MarkedIn o t) (hget : k.session.types.get? o = some t)
    (hdescriptor : t.descriptor.isSome = true) {e : MacroEntry} (he : e ∈ t.macros.entries) :
    k.Present e.unit.name := by
  obtain ⟨d, hd⟩ := Option.isSome_iff_exists.1 hdescriptor
  have hrecord : e.record ∈ d.macros := h.lockstep.macros d hd ▸ List.mem_map_of_mem he
  exact .inr (.inr ⟨d, TypeRegistry.mem_descriptors hget hd, e.record, hrecord, rfl⟩)

/-- **Registration.** The entries of a definition that is being built are added. -/
theorem register (h : k.MarkedIn o t) (hnumbering : k.Numbering) {id : Nat} {d : MacroDefinition}
    {unit : String} (hbuild : k.BuildOf id d unit) (howner : d.owner = o) {loaded : LoadedUnit}
    (hloaded : loaded.name = unit) :
    k.MarkedIn o (Typer.withMacro d.spec unit loaded t) := by
  subst hloaded
  obtain ⟨d₁, hd₁, hspec, howner₁, hunit₁, hbuilding₁⟩ := hbuild
  have hown (e : MacroEntry) (he : e ∈ t.macros.entries) (hunit : e.unit.name = loaded.name) :
      e ∈ d.spec.entries e.unit := by
    rw [← hspec]
    exact h.building id d₁ hd₁ (howner₁.trans howner) hbuilding₁ e he (hunit ▸ hunit₁)
  have hentries : (Typer.withMacro d.spec loaded.name loaded t).macros.entries = _ :=
    (congrArg MacroTable.entries (OwnerType.macros_withMacro _ _ _ t)).trans
      (MacroTable.entries_foldl_add _ _)
  refine ⟨h.lockstep.withMacro d.spec rfl, ?_, fun id' d' hd' howner' hbuilding' e he hunit' => ?_⟩
  · rw [hentries]
    refine h.marked.register hown fun e hparts => ?_
    exact ⟨d₁, List.mem_of_getElem? hd₁, howner₁.trans howner, hspec ▸ hparts⟩
  · rw [hentries] at he
    rcases h.marked.mem_register hown he with hnew | ⟨hold, -, -⟩
    · -- the unit is that of the definition, and of no other one
      have hunit : e.unit = loaded := by
        obtain ⟨form, -, rfl⟩ := List.mem_map.1 hnew
        rfl
      obtain rfl := hnumbering.id_eq hd₁ hd' hunit₁ (hunit ▸ hunit')
      obtain rfl : d₁ = d' := Option.some.inj (hd₁.symm.trans hd')
      rw [hspec, hunit]
      exact hnew
    · exact h.building id' d' hd' howner' hbuilding' e hold hunit'

end MarkedIn

namespace Marks

variable (h : Marks o k)
include h

/-- What has no part in it may change. -/
theorem steady (hreachable : k'.Reachable) (hsteady : k.Steady k')
    (htypes : TypeRegistry.Carries o k.session.types k'.session.types)
    (hfind : ∀ name, Descriptor.find k'.world.files name k'.session.settings.classpath =
      Descriptor.find k.world.files name k.session.settings.classpath) : Marks o k' where
  reachable := hreachable
  numbering := h.numbering.kept hsteady.counter hsteady.units
  files name d hd := h.files name d (hfind name ▸ hd)
  hidden hnone d := by
    rw [hfind]
    exact h.hidden (htypes.known hnone) d
  table t' ht' hd' := by
    rcases htypes.table t' ht' hd' with ⟨hlockstep, hempty⟩ | ⟨t, ht, hd, hlockstep, hmacros⟩
    · exact .of_empty hlockstep hempty
    · exact (h.table t ht hd).steady hsteady hlockstep hmacros

/-- Definitions change, and types do not. -/
theorem of_types (hreachable : k'.Reachable) (hsteady : k.Steady k')
    (htypes : k'.session.types = k.session.types)
    (hfind : ∀ name, Descriptor.find k'.world.files name k'.session.settings.classpath =
      Descriptor.find k.world.files name k.session.settings.classpath) : Marks o k' :=
  h.steady hreachable hsteady (.of_get? (by rw [htypes])) hfind

/-- Importing a type that is not known brings no other table in. -/
theorem importType (name : String) (hnew : k.session.types.contains name = false) :
    Marks o ((SessionM.importType name).run k).2 := by
  have hreachable := h.reachable.step (.importType k name)
  have htypes := SessionM.types_importType name k
  obtain ⟨types, units, hk'⟩ := SessionM.keeps_importType name k
  rw [hk'] at hreachable htypes ⊢
  rw [types_withUnits] at htypes
  refine h.steady hreachable (.of_definitions ?_ (by simp)) ?_ (by simp)
  · rw [counter_withUnits]
  rw [types_withUnits]
  rcases htypes with rfl | ⟨d, macros, hfind, rfl⟩
  · exact .of_get? rfl
  · refine .of_get? (TypeRegistry.get?_install_of_ne _ ?_)
    -- the descriptor of the type would have been found before the type is known
    rintro rfl
    have hname : name = (OwnerType.ofDescriptor d macros).name := h.files name d hfind rfl
    have hnone : k.session.types.get? name = none :=
      Option.isNone_iff_eq_none.1 (Option.isSome_eq_false_iff.1 hnew)
    exact h.hidden (hname ▸ hnone) d (hname ▸ hfind)

/-- The build of a definition begins, and its unit is a new one. -/
theorem begin {id : Nat} {d : MacroDefinition} (hd : k.session.definition? id = some d)
    (hs : d.state = .unresolved) : Marks o ((k.noting id .extending).naming id d.owner) := by
  have hdefinitions := definitions_begin k id d.owner
  have hfree : ¬ k.Present ((k.noting id .extending).nextUnit d.owner) := by
    rw [k.nextUnit_noting, ← unitTaken_iff, k.nextUnit_free]
    exact Bool.false_ne_true
  refine ⟨h.reachable.run (k.run_begin id d), h.numbering.names (.inr ⟨id, d, hd, hs, rfl⟩), h.files,
    h.hidden, fun t ht hdescriptor => ?_⟩
  have hmarked := h.table t ht hdescriptor
  refine ⟨hmarked.lockstep, hmarked.marked.mono fun e he => ?_, fun id' d' hd' howner hbuilding e he
    hunit => ?_⟩
  · obtain ⟨d', hd', howner, hparts⟩ := he
    obtain ⟨id', hd'⟩ := List.mem_iff_getElem?.1 hd'
    obtain ⟨d₁, hd₁, hspec, howner₁⟩ := (k.run_begin id d).definition_stays hd'
    exact ⟨d₁, List.mem_of_getElem? hd₁, howner₁.trans howner, hspec ▸ hparts⟩
  · rcases Session.definition?_modify_cases hdefinitions hd' with ⟨-, d₀, -, rfl⟩ | ⟨-, hold⟩
    · -- nobody has the new unit, so no entry is of that unit
      have hpresent := hmarked.present ht hdescriptor he
      rw [← Option.some.inj hunit] at hpresent
      exact absurd hpresent hfree
    · exact hmarked.building id' d' hold howner hbuilding e he hunit

theorem registerMacro {id : Nat} {d : MacroDefinition} {unit : String}
    (hbuild : k.BuildOf id d unit) {loaded : LoadedUnit}
    (hloaded : k.units.get? unit = some loaded) :
    Marks o ((Typer.registerMacro d unit loaded).run k).2 := by
  have hreachable := h.reachable.step (.registerMacro k d unit loaded hloaded)
  have hkeyed : loaded.name = unit := h.reachable.consistent.keyed _ _ hloaded
  rw [Typer.registerMacro_run] at hreachable ⊢
  cases hget : k.session.types.get? d.owner with
  | none => exact h
  | some t =>
    rw [hget] at hreachable
    dsimp only at hreachable ⊢
    by_cases howner : d.owner = o
    · subst howner
      have hself := TypeRegistry.get?_modify_self hget (Typer.withMacro d.spec unit loaded)
      refine ⟨hreachable, h.numbering.kept (Nat.le_refl _) (.of_definitions rfl), h.files,
        fun hnone => ?_, fun t' ht' hdescriptor => ?_⟩
      · exact absurd (hself.symm.trans hnone) nofun
      · obtain rfl : Typer.withMacro d.spec unit loaded t = t' :=
          Option.some.inj (hself.symm.trans ht')
        obtain ⟨d', hd'⟩ := Option.isSome_iff_exists.1 hdescriptor
        obtain ⟨d₀, hd₀, -⟩ := OwnerType.Extends.withMacro d.spec unit loaded t d' hd'
        have hmarked := h.table t hget (Option.isSome_iff_exists.2 ⟨d₀, hd₀⟩)
        exact (hmarked.register h.numbering hbuild rfl hkeyed).steady
          (.of_definitions (Nat.le_refl _) rfl) (fun h => h) rfl
    · exact h.steady hreachable (.of_definitions (Nat.le_refl _) rfl)
        (.of_get? (TypeRegistry.get?_modify_of_ne _ _ (Ne.symm howner))) fun _ => rfl

end Marks

end Work

namespace Typer

open Work

/-- Typing and builds keep what marks say. -/
theorem marks_invariant (o : String) : Invariant (Marks o) fun _ _ _ => True where
  meet {k} h spec owner span :=
    h.of_types (h.reachable.step (.meet _ spec owner span)) (.meeting k rfl rfl) rfl fun _ => rfl
  declare h owner m :=
    h.steady (h.reachable.step (.declare _ owner m)) (.of_definitions (Nat.le_refl _) rfl)
      (.define _ owner m) fun _ => rfl
  importType h name hnew := h.importType name hnew
  openType h name superclass persistent :=
    h.steady (h.reachable.step (.openType _ name superclass persistent))
      (.of_definitions (Nat.le_refl _) rfl) (.openType _ name superclass persistent) fun _ => rfl
  expand h unit call :=
    h.of_types (h.reachable.step (.expand _ unit call)) (.of_definitions (Nat.le_refl _) rfl) rfl
      fun _ => rfl
  record h e he :=
    h.of_types (h.reachable.step (.record _ e he)) (.of_definitions (Nat.le_refl _) rfl) rfl
      fun _ => rfl
  reachable h := h.reachable
  begin h _ _ hd hs := h.begin hd hs
  note {k} h id d unit hbuild state hstate := by
    have hne : state ≠ .unresolved := by
      rintro rfl
      cases hstate
    exact h.of_types (h.reachable.step (.transition k id state hne))
      (.modify hbuild fun _ => ⟨rfl, rfl, rfl⟩) rfl fun _ => rfl
  scopes {k} h scopes :=
    h.of_types (h.reachable.aside { k.session with scopes } rfl rfl rfl)
      (.of_definitions (Nat.le_refl _) rfl) rfl fun _ => rfl
  load {k} h unit files := by
    have hreachable := h.reachable.step (.load k unit files)
    obtain ⟨units, hk⟩ := SessionM.keeps_loadUnit unit files k
    rw [hk] at hreachable ⊢
    refine h.of_types hreachable (.of_definitions ?_ (by simp)) (by simp) (by simp)
    rw [counter_withUnits]
  register h _ _ _ hbuild _ hloaded := ⟨h.registerMacro hbuild hloaded, fun _ => trivial⟩
  persist {k} h files := by
    have hsession := session_persist files k
    refine ⟨h.of_types (h.reachable.step (.persist k files)) (.of_definitions ?_ ?_) ?_
      fun name => ?_, fun _ _ => id⟩
    · rw [hsession]
    · rw [hsession]
    · rw [hsession]
    · rw [hsession, find_persist]
  resolve {k} h id d unit hbuild _ :=
    h.of_types (h.reachable.step (.transition k id .resolved (by decide)))
      (.modify hbuild fun _ => ⟨rfl, rfl, rfl⟩) rfl fun _ => rfl
  fail {k} h id d unit hbuild e :=
    h.of_types (h.reachable.step (.fail k id e)) (.modify hbuild fun _ => ⟨rfl, rfl, rfl⟩) rfl
      fun _ => rfl

end Typer

namespace Work

variable {o : String} {k k' : Work} {t : OwnerType} {d : Descriptor}

/-! ### Sessions one after the other -/

/-- What a marked type has written is what a later session imports. -/
theorem Marks.importType_true (h : Marks o k) (ht : k.session.types.get? o = some t)
    (hd : t.descriptor = some d) {later : Work} (hlater : later.Reachable)
    (hoffered : d.Offered later.world.files later.session.settings.classpath)
    (htrue : ((SessionM.importType o).run later).1 = .ok true) : ∃ macros units,
      d.name = o ∧ d.BlocksLast ∧ d.macros = t.macros.entries.map MacroEntry.record ∧
      macros.map Prod.fst = d.macros ∧ (∀ p ∈ macros, p.2.name = p.1.unit) ∧
      ((SessionM.importType o).run later).2 = ({ later with session := { later.session with
        types := later.session.types.install (.ofDescriptor d macros) } } : Work).withUnits units := by
  have hname : d.name = o := h.reachable.named.names o t d (NameMap.mem_entries_of_get? ht) hd
  have hmarked := h.table t ht (Option.isSome_iff_exists.2 ⟨d, hd⟩)
  obtain ⟨d', macros, units, hfind, hrecords, hnames, hrun⟩ :=
    hlater.consistent.importType_true htrue
  have hfind : Descriptor.find later.world.files d.name later.session.settings.classpath =
      .ok (some d') := hname ▸ hfind
  obtain rfl := Descriptor.eq_of_offered hoffered hfind
  have hlast := Descriptor.blocksLast_of_decode?_encode (Descriptor.decode?_of_offered hoffered hfind)
  exact ⟨macros, units, hname, hlast, hmarked.lockstep.macros d' hd, hrecords, hnames, hrun⟩

/-- The sessions in which a type has got all of its macros by definitions, in the session itself or
    in those that the type comes from. -/
inductive Grown (o : String) : Work → Prop
  /-- The type is not known and not described, or it has no macros. -/
  | start {k : Work} (hreachable : k.Reachable) (hnumbering : k.Numbering) (hfiles : k.OwnFile o)
      (hhidden : k.Hidden o) (hempty : ∀ t, k.session.types.get? o = some t →
        t.Lockstep ∧ t.macros.entries = []) : Grown o k
  /-- The type is imported from what such a session knows of it, while no macro of it is built. -/
  | imported {k later : Work} {t : OwnerType} {d : Descriptor} (h : Grown o k)
      (ht : k.session.types.get? o = some t) (hd : t.descriptor = some d)
      (hreachable : later.Reachable) (hnumbering : later.Numbering) (hfiles : later.OwnFile o)
      (hidle : ∀ d ∈ later.session.definitions, d.owner = o → d.state.isBuilding = false)
      (hoffered : d.Offered later.world.files later.session.settings.classpath)
      (htrue : ((SessionM.importType o).run later).1 = .ok true) :
      Grown o ((SessionM.importType o).run later).2
  /-- Typing goes on, and builds what it needs. -/
  | typing {k k' : Work} (h : Grown o k) (hpass : k.Passes k') : Grown o k'
  /-- The session is used for something else, and others change files and load units. -/
  | turn {k : Work} (h : Grown o k) (session : Session) (world : World)
      (htypes : session.types = k.session.types)
      (hdefinitions : session.definitions = k.session.definitions)
      (hcounter : k.session.counter ≤ session.counter)
      (hbackend : session.backend = k.session.backend) (hkeyed : world.shared.Keyed)
      (hgrows : k.world.shared.Grows world.shared) (hfiles : OwnFile o ⟨session, world⟩)
      (hhidden : Hidden ⟨session, world⟩ o) : Grown o ⟨session, world⟩

namespace Grown

/-- A session starts with types that have no macros. -/
theorem started {settings : Settings} {backend : Backend} {inline : InlineMacros} {world : World}
    (hshared : world.shared.Keyed) (hown : ∀ units, backend = .own units → units.Keyed)
    (hfiles : OwnFile o ⟨{ Session.start settings backend with inline }, world⟩)
    (hhidden : Hidden ⟨{ Session.start settings backend with inline }, world⟩ o) :
    Grown o ⟨{ Session.start settings backend with inline }, world⟩ := by
  refine .start (.start settings backend inline world hshared hown) ⟨nofun, nofun⟩ hfiles hhidden
    fun t ht => ⟨?_, ?_⟩
  · exact (Lineage.inStep_initial settings.scriptType).2 t (NameMap.mem_values_of_get? ht)
  · have hnone := TypeRegistry.units_initial settings.scriptType
    refine List.eq_nil_iff_forall_not_mem.2 fun e he => ?_
    have hunit : e.unit ∈ (TypeRegistry.initial settings.scriptType).units :=
      TypeRegistry.mem_units_of_get? ht (List.mem_map_of_mem he)
    rw [hnone] at hunit
    cases hunit

/-- **Invariant.** In such sessions the marks of the type say what marks say. -/
theorem marks (h : Grown o k) : Marks o k := by
  induction h with
  | start hreachable hnumbering hfiles hhidden hempty =>
    exact ⟨hreachable, hnumbering, hfiles, hhidden, fun t ht _ =>
      .of_empty (hempty t ht).1 (hempty t ht).2⟩
  | @imported k later t d _ ht hd hreachable hnumbering hfiles hidle hoffered htrue ih =>
    obtain ⟨macros, units, rfl, -, hmacros, hrecords, hnames, hrun⟩ :=
      ih.importType_true ht hd hreachable hoffered htrue
    have hmarked := ih.table t ht (Option.isSome_iff_exists.2 ⟨d, hd⟩)
    have hstep := hreachable.step (.importType later d.name)
    rw [hrun] at hstep ⊢
    have hget : (later.session.types.install (.ofDescriptor d macros)).get? d.name =
        some (.ofDescriptor d macros) := TypeRegistry.get?_install_self _ _
    have hsteady : later.Steady (({ later with session := { later.session with
        types := later.session.types.install (.ofDescriptor d macros) } } : Work).withUnits units) :=
      .of_definitions (by rw [counter_withUnits]) (definitions_withUnits _ _)
    refine ⟨hstep, hnumbering.kept hsteady.counter hsteady.units, fun name d' hfind => ?_,
      fun hnone => ?_, fun t' ht' _ => ?_⟩
    · simp only [files_withUnits, settings_withUnits] at hfind
      exact hfiles name d' hfind
    · rw [types_withUnits, hget] at hnone
      cases hnone
    · -- what is read is marked again, and nothing of the type is being built
      rw [types_withUnits, hget] at ht'
      cases ht'
      refine ⟨.ofDescriptor hrecords hnames (hmarked.lockstep.descriptor_distinct hd),
        hmarked.marked.read hmacros hrecords hnames _, fun id d' hd' howner hbuilding => ?_⟩
      rw [Session.definition?, definitions_withUnits] at hd'
      rw [hidle d' (List.mem_of_getElem? hd') howner] at hbuilding
      cases hbuilding
  | typing _ hpass ih => exact hpass.keeps (Typer.marks_invariant o) ih
  | @turn k _ session world htypes hdefinitions hcounter hbackend hkeyed hgrows hfiles hhidden ih =>
    have hreachable : Reachable { k with session } :=
      ih.reachable.aside session htypes hdefinitions hbackend
    have hsteady : k.Steady ⟨session, world⟩ := .of_definitions hcounter hdefinitions
    refine ⟨hreachable.world world hkeyed hgrows, ih.numbering.kept hcounter hsteady.units, hfiles,
      hhidden, fun t ht hdescriptor => ?_⟩
    exact (ih.table t (htypes ▸ ht) hdescriptor).steady hsteady (fun h => h) rfl

/-- A whole compilation leads from such a session to another one. -/
theorem compile (h : Grown o k) {n : Nat} {source text : String} {r : Except Diagnostic Compilation}
    (hrun : k.compileWithin n source text = .ok (r, k')) (hfiles : k'.OwnFile o)
    (hhidden : k'.Hidden o) : Grown o k' := by
  have hmarks := h.marks
  have henter : Grown o (k.enter source) :=
    h.turn (k.enter source).session k.world rfl rfl (Nat.le_refl _) rfl
      hmarks.reachable.consistent.shared (.refl _) hmarks.files hmarks.hidden
  obtain ⟨k₁, files, hpass, hreached, rfl⟩ := passes_compileWithin hmarks.reachable hrun
  exact (henter.typing hpass).turn k₁.session _ rfl rfl (Nat.le_refl _) rfl
    hreached.consistent.shared (.refl _) hfiles hhidden

/-- **Theorem.** A type has got all of its macros by definitions, of any names and signatures, one
    after the other, in one session or in several that import it from each other; and a later session
    imports its descriptor.  Then the later session has the same entries, in order.  An entry is
    marked there if and only if it was marked and the entry with the block that came with it is still
    there; and it has the same mark, unless another macro of the type has its name, and takes the
    same arguments and a block, but is not called without the block. -/
theorem marks_imported (h : Grown o k) (ht : k.session.types.get? o = some t)
    (hd : t.descriptor = some d) {later : Work} (hlater : later.Reachable)
    (hoffered : d.Offered later.world.files later.session.settings.classpath)
    (htrue : ((SessionM.importType o).run later).1 = .ok true) : ∃ imported,
      ((SessionM.importType o).run later).2.session.types.get? o = some imported ∧
      imported.macros.entries.map MacroEntry.record = t.macros.entries.map MacroEntry.record ∧
      ∀ e ∈ t.macros.entries, ∀ e' ∈ imported.macros.entries, e'.key = e.key →
        (e'.kind = .blockless ↔
          e.kind = .blockless ∧ ∃ f ∈ t.macros.entries, f.Completes e) ∧
        (¬ k.Parts o e → (e'.kind = .blockless ↔ e.kind = .blockless)) := by
  have hmarks := h.marks
  have hmarked := (hmarks.table t ht (Option.isSome_iff_exists.2 ⟨d, hd⟩)).marked
  obtain ⟨macros, units, rfl, hlast, hmacros, hrecords, hnames, hrun⟩ :=
    hmarks.importType_true ht hd hlater hoffered htrue
  have hget : (later.session.types.install (.ofDescriptor d macros)).get? d.name =
      some (.ofDescriptor d macros) := TypeRegistry.get?_install_self _ _
  rw [hrun, types_withUnits]
  refine ⟨_, hget, hmarked.records_read hmacros hrecords hnames, fun e he e' he' hkey => ?_⟩
  have hkind := hmarked.kind_read hmacros hrecords hnames hlast he he' hkey
  refine ⟨hkind, fun hwhole => ?_⟩
  rw [hkind]
  -- what completes a marked entry can only have been taken by a macro that parts the two
  exact ⟨And.left, fun hmark => ⟨hmark, (hmarked.completed he hmark).resolve_right hwhole⟩⟩

end Grown

/-! ### A macro with an optional block -/

/-- A macro of scripts that stands for a number, with or without a block. -/
def optional : MacroDefinition where
  spec := ⟨"each", [.block "b" true], ⟨.zero, .int 1⟩⟩
  owner := "Script"
  span := .zero
  source := Diagnostic.fallback

/-- The class that it is compiled as. -/
def optionalImage : UnitImage where
  name := "kiln.macros.Script$Extension1"
  superclass := some extensionType
  methods := [
    ⟨"initialize", ["mirah", "call"], ⟨.zero, .body [
      Extension.keep .zero "mirah", Extension.keep .zero "call"]⟩⟩,
    ⟨"expand", [], ⟨.zero, .body [
      ⟨.zero, .invoke "_expand" [Extension.askCall .zero "block" []] none⟩]⟩⟩,
    ⟨"_expand", ["b"], ⟨.zero, .int 1⟩⟩]

theorem storable_optionalImage : optionalImage.Storable := by
  intro m hm
  simp only [optionalImage, List.mem_cons, List.not_mem_nil, or_false] at hm
  rcases hm with rfl | rfl | rfl
  all_goals
    simp [Node.Storable, Form.Storable, Extension.keep, Extension.askCall, Extension.callField,
      Span.Fits, Word.fits_iff, Word.bound]
    try decide

/-- The macro can be built where it has just been met. -/
theorem exists_require_optional {t : Typing}
    (ht : t = { work := meeting ⟨Session.start {} (.own {}), {}⟩ [optional] }) :
    ∃ t' u, Typer.require 1 0 t = .ok (.ok (), t') ∧
      (∀ d ∈ t'.work.session.definitions, d.spec = optional.spec) ∧
      t'.work.session.types.get? "Script" = some (Typer.withMacro optional.spec optionalImage.name u
        (.ofProgram "Script" none true)) := by
  have hd : t.work.session.definition? 0 = some optional := by rw [ht]; rfl
  obtain ⟨t', s, f, u, hbuilt, ⟨⟨d, hs, hspec⟩, hscript⟩, htypes, hmodified, hf⟩ :=
    Typer.exists_require_of_prepared optionalImage
      (fun s => (∃ d, s.definitions = [d] ∧ d.spec = optional.spec) ∧
        s.types.get? "Script" = some (.ofProgram "Script" none true)) hd rfl
      (by subst ht; exact ⟨rfl, rfl, rfl, rfl, rfl, ⟨_, rfl, rfl⟩, rfl⟩) storable_optionalImage
      (by decide)
  refine ⟨t', u, hbuilt, fun d' hd' => ?_, ?_⟩
  · rw [hmodified, hs] at hd'
    rw [List.mem_singleton.1 hd']
    exact (hf d).2.1.trans hspec
  · rw [htypes]
    exact TypeRegistry.get?_modify_self hscript _

namespace Grown

/-- A macro with an optional block is defined in one session, and another one reads its mark. -/
theorem marks_imported_optional : ∃ (k later : Work) (t : OwnerType) (d : Descriptor),
    Grown "Script" k ∧ k.session.types.get? "Script" = some t ∧ t.descriptor = some d ∧
    later.Reachable ∧ d.Offered later.world.files later.session.settings.classpath ∧
    ((SessionM.importType "Script").run later).1 = .ok true ∧
    ∃ imported, ((SessionM.importType "Script").run later).2.session.types.get? "Script" =
      some imported ∧ ∃ e ∈ t.macros.entries, ∃ e' ∈ imported.macros.entries, e'.key = e.key ∧
        e.key = ("each", ⟨[]⟩) ∧ e.kind = .blockless ∧ e'.kind = .blockless := by
  -- the session in which the macro is defined
  let start : Work := ⟨Session.start {} (.own {}), {}⟩
  have hkeyed (units : Namespace) (h : Backend.own {} = .own units) : units.Keyed := by
    cases h
    exact Namespace.keyed_empty
  have hstart : Grown "Script" start := .started Namespace.keyed_empty hkeyed
    (fun _ _ h => by cases h) fun _ _ h => by cases h
  obtain ⟨t', u, hbuilt, hspecs, ht⟩ :=
    exists_require_optional (t := { work := start.meeting [optional] }) rfl
  have hmet : start.Passes (start.meeting [optional]) :=
    Passes.start.meet optional.spec "Script" .zero
  have hpass : start.Passes t'.work := by
    have hlast := hmet.build (t := { work := start.meeting [optional] }) 1 0
    rwa [hbuilt] at hlast
  generalize t'.work = k at hpass hspecs ht
  have hgrown : Grown "Script" k := hstart.typing hpass
  have hreachable := hgrown.marks.reachable
  let d : Descriptor := { name := "Script", superclass := some "Object", macros :=
    [⟨"each", ⟨[.block]⟩, optionalImage.name⟩, ⟨"each", ⟨[]⟩, optionalImage.name⟩] }
  have hd : (Typer.withMacro optional.spec optionalImage.name u
    (.ofProgram "Script" none true)).descriptor = some d := rfl
  -- the session that imports it
  let later : Work := ⟨Session.start { classpath := ["out"] } (.own k.units),
    { files := ({} : Files).set ["out", "Script.kdesc"] (.text d.encode) }⟩
  have hlater : later.Reachable := .start _ _ .builtins _ Namespace.keyed_empty fun units h => by
    cases h
    exact hreachable.consistent.keyed
  have hoffered : d.Offered later.world.files ["out"] := by
    have hpath : Path.ofText (Descriptor.pathIn "out" "Script") = ["out", "Script.kdesc"] := by
      decide +kernel
    have htext : later.world.files.text? ["out", "Script.kdesc"] = some d.encode := rfl
    rw [Descriptor.Offered, List.findSome?_cons, hpath, htext]
  have hlast : d.BlocksLast := by simp [Descriptor.BlocksLast, d, Signature.blockLast]
  have hmarked := hgrown.marks.table _ ht (Option.isSome_iff_exists.2 ⟨d, hd⟩)
  have hunits (r : MacroRecord) (hr : r ∈ d.macros) : later.Resolves r.unit := by
    -- the unit of a record is that of an entry, which is loaded
    rw [hmarked.lockstep.macros d hd] at hr
    obtain ⟨e, he, rfl⟩ := List.mem_map.1 hr
    have hloaded := hreachable.consistent.loaded e.unit
      (TypeRegistry.mem_units_of_get? ht (List.mem_map_of_mem he))
    exact resolves_iff.2 ⟨rfl, Namespace.exists_resolve_iff.2 (.inl
      (Option.isSome_iff_exists.2 ⟨e.unit, hloaded⟩))⟩
  have htrue : ((SessionM.importType "Script").run later).1 = .ok true :=
    importType_of_resolves (Descriptor.find_of_offered hlast hoffered) hunits
  obtain ⟨imported, himported, hrecords, hmarks⟩ :=
    hgrown.marks_imported ht hd hlater hoffered htrue
  refine ⟨k, later, _, d, hgrown, ht, hd, hlater, hoffered, htrue, imported, himported, ?_⟩
  let e : MacroEntry := ⟨"each", ⟨[]⟩, .blockless, u⟩
  have he : e ∈ (Typer.withMacro optional.spec optionalImage.name u
      (.ofProgram "Script" none true)).macros.entries := (MacroTable.mem_withMacro rfl).2
  have hrecord : e.record ∈ imported.macros.entries.map MacroEntry.record :=
    hrecords ▸ List.mem_map_of_mem he
  obtain ⟨e', he', hsame⟩ := List.mem_map.1 hrecord
  have hkey : e'.key = e.key := congrArg MacroRecord.key hsame
  have hwhole : ¬ k.Parts "Script" e := by
    rintro ⟨d', hd', -, hparts⟩
    rw [hspecs d' hd'] at hparts
    have hform : (⟨[]⟩ : Signature) ∈ optional.spec.forms.map Prod.fst := by decide
    exact hparts.2.1 hform
  exact ⟨e, he, e', he', hkey, rfl, rfl, ((hmarks e he e' he' hkey).2 hwhole).2 rfl⟩

end Grown

end Work

end Quasiquote
