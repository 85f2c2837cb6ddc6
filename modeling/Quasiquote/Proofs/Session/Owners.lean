import Quasiquote.Proofs.Macro.Table
import Quasiquote.Proofs.Session.Forward

namespace Quasiquote

/-!
# Owners — macros and the types that they are written for

The table of a type changes by what its own definitions add to it, and by nothing else.  So what a
definition has added is there from the time when it is resolved, under its name and signatures, and
no other table changes because of it.

* `Work.Makes`, `Work.Additions` — the entries that the definitions of a type have added;
* `Work.Tended` — the invariant;
* `Typer.tended_invariant` — typing and building keep it;
* `Work.Later`, `Work.Later.tended` — the sessions that come afterwards, which keep it too.
-/

namespace TypeRegistry

/-- Whether a type that is known is still known, with the same table. -/
def KeepsTable (o : String) (r r' : TypeRegistry) : Prop :=
  ∀ t, r.get? o = some t → ∃ t', r'.get? o = some t' ∧ t'.macros = t.macros

namespace KeepsTable

variable {o : String} {r r' : TypeRegistry}

theorem refl (o : String) (r : TypeRegistry) : KeepsTable o r r := fun t ht => ⟨t, ht, rfl⟩

/-- The table of another type may change. -/
theorem of_get? (h : r'.get? o = r.get? o) : KeepsTable o r r' := fun t ht => ⟨t, h.trans ht, rfl⟩

theorem of_extends (h : Extends r r') : KeepsTable o r r' := by
  intro t ht
  obtain ⟨t', ht', hmacros, -⟩ := h.kept o t ht
  exact ⟨t', ht', hmacros⟩

theorem openType (r : TypeRegistry) (name : String) (superclass : Option String)
    (persistent : Bool) : KeepsTable o r (r.openType name superclass persistent) := by
  intro t ht
  have hknown : ¬ (o = name ∧ r.get? name = none) := by
    rintro ⟨rfl, hnone⟩
    rw [hnone] at ht
    cases ht
  exact ⟨t, by rw [get?_openType, if_neg hknown, ht], rfl⟩

theorem known (h : KeepsTable o r r') (hr : r.contains o = true) : r'.contains o = true := by
  obtain ⟨t, ht⟩ := Option.isSome_iff_exists.1 hr
  obtain ⟨t', ht', -⟩ := h t ht
  exact Option.isSome_iff_exists.2 ⟨t', ht'⟩

theorem entriesOf (h : KeepsTable o r r') (hr : r.contains o = true) :
    r'.entriesOf o = r.entriesOf o := by
  obtain ⟨t, ht⟩ := Option.isSome_iff_exists.1 hr
  obtain ⟨t', ht', hmacros⟩ := h t ht
  rw [entriesOf_of_get? ht, entriesOf_of_get? ht', hmacros]

end KeepsTable

end TypeRegistry

/-- What is being built has not been concluded. -/
theorem BuildState.not_final_of_building {state : BuildState} (h : state.isBuilding = true) :
    state.isFinal = false := by
  cases state <;> first | rfl | cases h

namespace Work

variable {o : String} {k₀ k k' : Work} {added : List MacroEntry} {e : MacroEntry}

/-! ### What definitions add -/

/-- Whether a definition has been built, or has failed. -/
def Concluded (k : Work) (id : Nat) : Prop :=
  ∃ d, k.session.definition? id = some d ∧ d.state.isFinal = true

/-- Whether an entry is one that a definition of a type makes, the build of which has begun and had
    not been concluded in `k₀`. -/
def Makes (k₀ : Work) (o : String) (e : MacroEntry) (k : Work) : Prop :=
  ∃ id d, k.session.definition? id = some d ∧ d.owner = o ∧ d.state ≠ .unresolved ∧
    d.unit = some e.unit.name ∧ e ∈ d.spec.entries e.unit ∧ ¬ k₀.Concluded id

/-- Whether the table of a type is what it was in `k₀` with additions that its definitions have made
    since, among them all entries of those that have been resolved. -/
structure Additions (k₀ : Work) (o : String) (added : List MacroEntry) (k : Work) : Prop where
  entries : k.session.types.entriesOf o =
    added.foldl (fun kept e => Keyed.put MacroEntry.key e kept) (k₀.session.types.entriesOf o)
  made : ∀ e ∈ added, k₀.Makes o e k
  listed : ∀ id d, k.session.definition? id = some d → d.owner = o → d.state = .resolved →
    ¬ k₀.Concluded id → ∃ u, d.unit = some u.name ∧ ∀ e ∈ d.spec.entries u, e ∈ added

/-- Whether definitions stay what they are once their builds have begun. -/
def BegunStay (k k' : Work) : Prop :=
  ∀ id d, k.session.definition? id = some d → d.state ≠ .unresolved →
    ∃ d', k'.session.definition? id = some d' ∧ d'.spec = d.spec ∧ d'.owner = d.owner ∧
      d'.unit = d.unit ∧ d'.state ≠ .unresolved

theorem BegunStay.of_definitions (h : k'.session.definitions = k.session.definitions) :
    k.BegunStay k' :=
  fun id d hd hs => ⟨d, by rwa [Session.definition?, h], rfl, rfl, rfl, hs⟩

theorem Makes.of_stay (h : k₀.Makes o e k) (hstay : k.BegunStay k') : k₀.Makes o e k' := by
  obtain ⟨id, d, hd, howner, hs, hunit, hmem, hopen⟩ := h
  obtain ⟨d', hd', hspec, howner', hunit', hs'⟩ := hstay id d hd hs
  exact ⟨id, d', hd', howner'.trans howner, hs', hunit'.trans hunit, hspec ▸ hmem, hopen⟩

namespace Additions

/-- At first there are none. -/
theorem start (k₀ : Work) (o : String) : k₀.Additions o [] k₀ where
  entries := rfl
  made _ he := absurd he List.not_mem_nil
  listed id d hd _ hs hopen := absurd ⟨d, hd, by rw [hs]; rfl⟩ hopen

/-- Definitions change, and the table does not. -/
theorem of_stay (h : k₀.Additions o added k)
    (hentries : k'.session.types.entriesOf o = k.session.types.entriesOf o)
    (hstay : k.BegunStay k')
    (hlisted : ∀ id d, k'.session.definition? id = some d → d.owner = o → d.state = .resolved →
      k.session.definition? id = some d ∨
        ∃ u, d.unit = some u.name ∧ ∀ e ∈ d.spec.entries u, e ∈ added) :
    k₀.Additions o added k' where
  entries := hentries.trans h.entries
  made e he := (h.made e he).of_stay hstay
  listed id d hd howner hs hopen :=
    (hlisted id d hd howner hs).elim (fun hd => h.listed id d hd howner hs hopen) fun h => h

/-- More entries are added. -/
theorem more (h : k₀.Additions o added k) {es : List MacroEntry}
    (hdefinitions : k'.session.definitions = k.session.definitions)
    (hentries : k'.session.types.entriesOf o =
      es.foldl (fun kept e => Keyed.put MacroEntry.key e kept) (k.session.types.entriesOf o))
    (hmade : ∀ e ∈ es, k₀.Makes o e k) : k₀.Additions o (added ++ es) k' where
  entries := by rw [hentries, h.entries, List.foldl_append]
  made e he :=
    have hmade : k₀.Makes o e k := (List.mem_append.1 he).elim (h.made e) (hmade e)
    hmade.of_stay (.of_definitions hdefinitions)
  listed id d hd howner hs hopen := by
    rw [Session.definition?, hdefinitions] at hd
    obtain ⟨u, hunit, hmem⟩ := h.listed id d hd howner hs hopen
    exact ⟨u, hunit, fun e he => List.mem_append_left _ (hmem e he)⟩

/-- One definition is changed.  It may be resolved once its entries have been added. -/
theorem modify (h : k₀.Additions o added k) {id : Nat} {d : MacroDefinition}
    (hd : k.session.definition? id = some d) {f : MacroDefinition → MacroDefinition}
    (hf : (f d).spec = d.spec ∧ (f d).owner = d.owner)
    (hbegun : d.state ≠ .unresolved → (f d).state ≠ .unresolved ∧ (f d).unit = d.unit)
    (hdefinitions : k'.session.definitions = k.session.definitions.modify id f)
    (htypes : k'.session.types = k.session.types)
    (hlisted : d.owner = o → (f d).state = .resolved →
      ∃ u, (f d).unit = some u.name ∧ ∀ e ∈ d.spec.entries u, e ∈ added) :
    k₀.Additions o added k' := by
  refine h.of_stay (by rw [htypes]) (fun id' d' hd' hs => ?_) fun id' d' hd' howner hs => ?_
  · by_cases hid : id' = id
    · subst hid
      obtain rfl : d' = d := Option.some.inj (hd'.symm.trans hd)
      exact ⟨f d', Session.definition?_modify_self hdefinitions hd, hf.1, hf.2, (hbegun hs).2,
        (hbegun hs).1⟩
    · exact ⟨d', (Session.definition?_modify_ne hdefinitions hid).trans hd', rfl, rfl, rfl, hs⟩
  · rcases Session.definition?_modify_cases hdefinitions hd' with ⟨rfl, d₀, hd₀, rfl⟩ | ⟨-, hd'⟩
    · obtain rfl : d₀ = d := Option.some.inj (hd₀.symm.trans hd)
      rw [hf.1]
      exact .inr (hlisted (hf.2.symm.trans howner) hs)
    · exact .inl hd'

/-- What has been added is there, or other entries in its place. -/
theorem exists_key (h : k₀.Additions o added k) (he : e ∈ added) :
    ∃ x ∈ k.session.types.entriesOf o, x.key = e.key ∧ k₀.Makes o x k := by
  obtain ⟨x, hx, hkey, hmem⟩ :=
    Keyed.exists_mem_foldl_put MacroEntry.key he (k₀.session.types.entriesOf o)
  exact ⟨x, h.entries ▸ hmem, hkey, h.made x hx⟩

end Additions

/-! ### The invariant -/

/-- Whether the descriptor of a type is found under the name of the type only. -/
def OwnFile (o : String) (k : Work) : Prop :=
  ∀ name d, Descriptor.find k.world.files name k.session.settings.classpath = .ok (some d) →
    d.name = o → name = o

/-- Whether a type is known, the table of which only its definitions have changed since `k₀`, and
    what had been concluded stays so. -/
structure Tended (k₀ : Work) (o : String) (k : Work) : Prop where
  reachable : k.Reachable
  files : k.OwnFile o
  known : k.session.types.contains o = true
  concluded : ∀ id d, k₀.session.definition? id = some d → d.state.isFinal = true →
    k.session.definition? id = some d
  additions : ∃ added, k₀.Additions o added k

namespace Tended

theorem start (hreachable : k₀.Reachable) (hfiles : k₀.OwnFile o)
    (hknown : k₀.session.types.contains o = true) : k₀.Tended o k₀ :=
  ⟨hreachable, hfiles, hknown, fun _ _ hd _ => hd, [], .start k₀ o⟩

variable (h : k₀.Tended o k)
include h

/-- What has no part in it may change. -/
theorem of_eq (hreachable : k'.Reachable)
    (hdefinitions : k'.session.definitions = k.session.definitions)
    (htable : TypeRegistry.KeepsTable o k.session.types k'.session.types)
    (hfind : ∀ name, Descriptor.find k'.world.files name k'.session.settings.classpath =
      Descriptor.find k.world.files name k.session.settings.classpath) : k₀.Tended o k' where
  reachable := hreachable
  files name d hd := h.files name d (hfind name ▸ hd)
  known := htable.known h.known
  concluded id d hd hs := by
    rw [Session.definition?, hdefinitions]
    exact h.concluded id d hd hs
  additions := h.additions.imp fun added hadded =>
    hadded.of_stay (htable.entriesOf h.known) (.of_definitions hdefinitions) fun id d hd _ _ =>
      .inl (by rwa [Session.definition?, hdefinitions] at hd)

/-- Types change, but not the table. -/
theorem of_types {types : TypeRegistry}
    (hreachable : Reachable { k with session := { k.session with types } })
    (htable : TypeRegistry.KeepsTable o k.session.types types) :
    k₀.Tended o { k with session := { k.session with types } } :=
  h.of_eq hreachable rfl htable fun _ => rfl

/-- A definition is met. -/
theorem meeting {d : MacroDefinition} (hd : d.state = .unresolved)
    (hreachable : (k.meeting [d]).Reachable) : k₀.Tended o (k.meeting [d]) where
  reachable := hreachable
  files := h.files
  known := h.known
  concluded id d' hd' hs := by
    have hd' := h.concluded id d' hd' hs
    exact (definition?_meeting_of_lt (List.getElem?_eq_some_iff.1 hd').1).trans hd'
  additions := by
    refine h.additions.imp fun added hadded => hadded.of_stay rfl (fun id d' hd' hs => ?_) ?_
    · exact ⟨d', (definition?_meeting_of_lt (List.getElem?_eq_some_iff.1 hd').1).trans hd', rfl, rfl,
        rfl, hs⟩
    · intro id d' hd' _ hs
      rcases Nat.lt_or_ge id k.met with hlt | hge
      · exact .inl (definition?_meeting_of_lt hlt ▸ hd')
      · rw [List.mem_singleton.1 (mem_of_definition?_meeting hge hd'), hd] at hs
        cases hs

/-- A definition that has not been concluded is changed.  It may be resolved once its entries have
    been added. -/
theorem modify {id : Nat} {d : MacroDefinition} (hd : k.session.definition? id = some d)
    (hopen : d.state.isFinal = false) {f : MacroDefinition → MacroDefinition}
    (hf : (f d).spec = d.spec ∧ (f d).owner = d.owner)
    (hbegun : d.state ≠ .unresolved → (f d).state ≠ .unresolved ∧ (f d).unit = d.unit)
    {session : Session} (hreachable : Reachable { k with session })
    (hdefinitions : session.definitions = k.session.definitions.modify id f)
    (htypes : session.types = k.session.types) (hsettings : session.settings = k.session.settings)
    (hlisted : (f d).state = .resolved → ∃ added, k₀.Additions o added k ∧ (d.owner = o →
      ∃ u, (f d).unit = some u.name ∧ ∀ e ∈ d.spec.entries u, e ∈ added)) :
    k₀.Tended o { k with session } where
  reachable := hreachable
  files name d hd := h.files name d (hsettings ▸ hd)
  known := by rw [htypes]; exact h.known
  concluded id' d' hd' hs := by
    have hd' := h.concluded id' d' hd' hs
    refine (Session.definition?_modify_ne hdefinitions ?_).trans hd'
    rintro rfl
    obtain rfl : d' = d := Option.some.inj (hd'.symm.trans hd)
    rw [hs] at hopen
    cases hopen
  additions := by
    by_cases hresolved : (f d).state = .resolved
    · obtain ⟨added, hadded, hmem⟩ := hlisted hresolved
      exact ⟨added, hadded.modify hd hf hbegun hdefinitions htypes fun howner _ => hmem howner⟩
    · exact h.additions.imp fun added hadded =>
        hadded.modify hd hf hbegun hdefinitions htypes fun _ hs => absurd hs hresolved

/-- Importing a type that is not known leaves those alone that are. -/
theorem importType (name : String) (hnew : k.session.types.contains name = false) :
    k₀.Tended o ((SessionM.importType name).run k).2 := by
  have hreachable := h.reachable.step (.importType k name)
  have htypes := SessionM.types_importType name k
  obtain ⟨types, units, hk'⟩ := SessionM.keeps_importType name k
  rw [hk'] at hreachable htypes ⊢
  rw [types_withUnits] at htypes
  refine h.of_eq hreachable (by simp) ?_ (by simp)
  rw [types_withUnits]
  rcases htypes with rfl | ⟨d, macros, hfind, rfl⟩
  · exact .refl o _
  · refine .of_get? (TypeRegistry.get?_install_of_ne _ ?_)
    rintro rfl
    have hname : name = (OwnerType.ofDescriptor d macros).name := h.files name d hfind rfl
    have hknown := h.known
    rw [← hname, hnew] at hknown
    cases hknown

theorem loadUnit (unit : String) (files : Artifacts) :
    k₀.Tended o ((SessionM.loadUnit unit files).run k).2 := by
  have hreachable := h.reachable.step (.load k unit files)
  obtain ⟨units, hk⟩ := SessionM.keeps_loadUnit unit files k
  rw [hk] at hreachable ⊢
  exact h.of_eq hreachable (by simp) (by rw [types_withUnits]; exact .refl o _) (by simp)

theorem persist (files : Artifacts) : k₀.Tended o ((Typer.persist files).run k).2 := by
  have hsession := Typer.session_persist files k
  refine h.of_eq (h.reachable.step (.persist k files)) (by rw [hsession]) ?_ fun name => ?_
  · rw [hsession]
    exact .refl o _
  · rw [hsession, find_persist]

variable {id : Nat} {d : MacroDefinition} {unit : String}

/-- **Registration.** The entries of a macro are added to the table of its owner. -/
theorem registerMacro (hbuild : k.BuildOf id d unit) {loaded : LoadedUnit}
    (hloaded : k.units.get? unit = some loaded) :
    k₀.Tended o ((Typer.registerMacro d unit loaded).run k).2 ∧
    (((Typer.registerMacro d unit loaded).run k).1 = .ok () → d.owner = o →
      ∃ added, k₀.Additions o added ((Typer.registerMacro d unit loaded).run k).2 ∧
        ∃ u, u.name = unit ∧ ∀ e ∈ d.spec.entries u, e ∈ added) := by
  have hreachable := h.reachable.step (.registerMacro k d unit loaded hloaded)
  have hkeyed : loaded.name = unit := h.reachable.consistent.keyed _ _ hloaded
  rw [Typer.registerMacro_run] at hreachable ⊢
  cases hget : k.session.types.get? d.owner with
  | none => exact ⟨h, nofun⟩
  | some t =>
    rw [hget] at hreachable
    dsimp only at hreachable ⊢
    by_cases howner : d.owner = o
    · subst howner
      obtain ⟨added, hadded⟩ := h.additions
      have hself := TypeRegistry.get?_modify_self hget (Typer.withMacro d.spec unit loaded)
      have hmade : ∀ e ∈ d.spec.entries loaded, k₀.Makes d.owner e k := by
        intro e he
        obtain ⟨d', hd', hspec, howner, hunit, hbuilding⟩ := hbuild
        have hloaded : e.unit = loaded := by
          obtain ⟨form, -, rfl⟩ := List.mem_map.1 he
          rfl
        refine ⟨id, d', hd', howner, ?_, ?_, ?_, ?_⟩
        · intro hs
          rw [hs] at hbuilding
          cases hbuilding
        · rw [hunit, hloaded, hkeyed]
        · rwa [hspec, hloaded]
        · -- what is being built had not been concluded
          rintro ⟨d₀, hd₀, hs₀⟩
          obtain rfl : d₀ = d' := Option.some.inj ((h.concluded id d₀ hd₀ hs₀).symm.trans hd')
          rw [BuildState.not_final_of_building hbuilding] at hs₀
          cases hs₀
      have hentries : (k.session.types.modify d.owner (Typer.withMacro d.spec unit loaded)).entriesOf
          d.owner = (d.spec.entries loaded).foldl (fun kept e => Keyed.put MacroEntry.key e kept)
            (k.session.types.entriesOf d.owner) := by
        rw [TypeRegistry.entriesOf_of_get? hself, TypeRegistry.entriesOf_of_get? hget,
          OwnerType.macros_withMacro, MacroTable.entries_foldl_add]
      refine ⟨⟨hreachable, h.files, ?_, h.concluded, _, hadded.more rfl hentries hmade⟩, fun _ _ =>
        ⟨_, hadded.more rfl hentries hmade, loaded, hkeyed, fun e he => List.mem_append_right _ he⟩⟩
      exact Option.isSome_iff_exists.2 ⟨_, hself⟩
    · refine ⟨h.of_eq hreachable rfl ?_ fun _ => rfl, fun _ hsame => absurd hsame howner⟩
      exact .of_get? (TypeRegistry.get?_modify_of_ne _ _ (Ne.symm howner))

end Tended

end Work

namespace Typer

open Work

/-- Typing and builds change the table of a type by what its own definitions add to it. -/
theorem tended_invariant (k₀ : Work) (o : String) : Invariant (Tended k₀ o) fun d unit k =>
    d.owner = o → ∃ added, k₀.Additions o added k ∧
      ∃ u, u.name = unit ∧ ∀ e ∈ d.spec.entries u, e ∈ added where
  meet h spec owner span := h.meeting rfl (h.reachable.step (.meet _ spec owner span))
  declare h owner m :=
    h.of_types (h.reachable.step (.declare _ owner m)) (.of_extends (.define _ owner m))
  importType h name hnew := h.importType name hnew
  openType h name superclass persistent :=
    h.of_types (h.reachable.step (.openType _ name superclass persistent))
      (.openType _ name superclass persistent)
  expand h unit call :=
    h.of_eq (h.reachable.step (.expand _ unit call)) rfl (.refl o _) fun _ => rfl
  record h e he := h.of_eq (h.reachable.step (.record _ e he)) rfl (.refl o _) fun _ => rfl
  reachable h := h.reachable
  begin {k} h id d hd hs :=
    h.modify hd (by rw [hs]; rfl) (f := fun d' => { d' with
        state := .extending, unit := some ((k.noting id .extending).nextUnit d.owner) })
      ⟨rfl, rfl⟩ (fun hne => absurd hs hne) (h.reachable.run (k.run_begin id d))
      (k.definitions_begin id d.owner) rfl rfl nofun
  note {k} h id d unit hbuild state hstate := by
    have hne : state ≠ .unresolved := by
      rintro rfl
      cases hstate
    obtain ⟨d', hd', -, -, -, hbuilding⟩ := hbuild
    refine h.modify hd' (BuildState.not_final_of_building hbuilding) ⟨rfl, rfl⟩
      (fun _ => ⟨hne, rfl⟩) (h.reachable.step (.transition k id state hne)) rfl rfl rfl fun hs => ?_
    subst hs
    cases hstate
  scopes {k} h scopes :=
    h.of_eq (h.reachable.aside { k.session with scopes } rfl rfl rfl) rfl (.refl o _) fun _ => rfl
  load h unit files := h.loadUnit unit files
  register h _ _ _ hbuild _ hloaded := h.registerMacro hbuild hloaded
  persist h files := by
    refine ⟨h.persist files, fun d unit hlisted howner => ?_⟩
    obtain ⟨added, hadded, hmem⟩ := hlisted howner
    have hsession := session_persist files
    refine ⟨added, hadded.of_stay (by rw [hsession]) (.of_definitions (by rw [hsession])) ?_, hmem⟩
    intro id d hd _ _
    rw [hsession] at hd
    exact .inl hd
  resolve {k} h id d unit hbuild hlisted := by
    obtain ⟨d', hd', hspec, howner, hunit, hbuilding⟩ := hbuild
    refine h.modify hd' (BuildState.not_final_of_building hbuilding) ⟨rfl, rfl⟩
      (fun _ => ⟨by simp, rfl⟩) (h.reachable.step (.transition k id .resolved (by decide))) rfl rfl
      rfl fun _ => ?_
    by_cases ho : d.owner = o
    · obtain ⟨added, hadded, u, hu, hmem⟩ := hlisted ho
      exact ⟨added, hadded, fun _ => ⟨u, hu ▸ hunit, hspec ▸ hmem⟩⟩
    · obtain ⟨added, hadded⟩ := h.additions
      exact ⟨added, hadded, fun hsame => absurd (howner.symm.trans hsame) ho⟩
  fail {k} h id d unit hbuild e := by
    obtain ⟨d', hd', -, -, -, hbuilding⟩ := hbuild
    exact h.modify hd' (BuildState.not_final_of_building hbuilding) ⟨rfl, rfl⟩
      (fun _ => ⟨by simp, rfl⟩) (h.reachable.step (.fail k id e)) rfl rfl rfl nofun

end Typer

namespace Work

/-! ### Afterwards -/

variable {o : String} {k₀ k₁ k k' : Work}

/-- The sessions that come after `k₁`: typing goes on from one of them, or others use it for
    something else and change files, as long as the descriptor of a type is found under the name of
    the type only. -/
inductive Later (o : String) (k₁ : Work) : Work → Prop
  | start : Later o k₁ k₁
  | typing {k k' : Work} (h : Later o k₁ k) (hpass : k.Passes k') : Later o k₁ k'
  | turn {k : Work} (h : Later o k₁ k) (session : Session) (world : World)
      (htypes : session.types = k.session.types)
      (hdefinitions : session.definitions = k.session.definitions)
      (hbackend : session.backend = k.session.backend) (hkeyed : world.shared.Keyed)
      (hgrows : k.world.shared.Grows world.shared) (hfiles : OwnFile o ⟨session, world⟩) :
    Later o k₁ ⟨session, world⟩

/-- What its definitions have added stays in the table of a type. -/
theorem Later.tended (h : k₁.Later o k) (h₁ : k₀.Tended o k₁) : k₀.Tended o k := by
  induction h with
  | start => exact h₁
  | typing _ hpass ih => exact hpass.keeps (Typer.tended_invariant k₀ o) ih
  | @turn k _ session world htypes hdefinitions hbackend hkeyed hgrows hfiles ih =>
    have hreachable : Reachable { k with session } :=
      ih.reachable.aside session htypes hdefinitions hbackend
    have hdefinition (id : Nat) : session.definition? id = k.session.definition? id := by
      rw [Session.definition?, hdefinitions, Session.definition?]
    refine ⟨hreachable.world world hkeyed hgrows, hfiles, ?_, fun id d hd hs => ?_, ?_⟩
    · rw [htypes]
      exact ih.known
    · exact (hdefinition id).trans (ih.concluded id d hd hs)
    · refine ih.additions.imp fun added hadded => hadded.of_stay (by rw [htypes])
        (.of_definitions hdefinitions) fun id d hd _ _ => .inl ((hdefinition id).symm.trans hd)

/-- A whole compilation is typing, after which descriptors are written. -/
theorem passes_compileWithin (hk : k.Reachable) {n : Nat} {source text : String}
    {r : Except Diagnostic Compilation} (hrun : k.compileWithin n source text = .ok (r, k')) :
    ∃ k₁ files, (k.enter source).Passes k₁ ∧ k₁.Reachable ∧
      k' = { k₁ with world := { k₁.world with files } } := by
  have hreachable : (k.enter source).Reachable := hk.aside _ rfl rfl rfl
  rcases k.compileWithin_cases source text with ⟨d, hd⟩ | ⟨markers, scope, tree, htyped⟩
  · cases (hd n).symm.trans hrun
    exact ⟨k.enter source, k.world.files, .start, hreachable, rfl⟩
  · have hpasses : Typer.Preserves (k.enter source).Passes (Typer.inferWithin n scope tree) :=
      Typer.preserves_within (passes_preserved _) (fun id _ ht => ht.build n id) _ scope tree
    have hpass := hpasses { work := k.enter source } .start
    have hreached := hreachable.inferWithin (t := { work := k.enter source }) n scope tree
    rw [htyped n] at hrun
    revert hrun hpass hreached
    rcases Typer.inferWithin n scope tree { work := k.enter source } with t | ⟨p, t⟩
    · intro hrun _ _
      cases hrun
    · intro hrun hpass hreached
      obtain ⟨⟨files, hfinish⟩, -⟩ := t.work.finish_cases {
        program := p.1
        errors := markers ++ t.errors
        warnings := t.work.session.warnings.drop (k.enter source).session.warnings.length
        expansions := t.work.session.expansions.drop (k.enter source).session.expansions.length }
      refine ⟨t.work, files, hpass, hreached, ?_⟩
      rw [← hfinish]
      exact (congrArg Prod.snd (Except.ok.inj hrun)).symm

/-- A whole compilation leads to such a session. -/
theorem Later.compile (h : k₁.Later o k) (hk : k.Reachable) (hfiles : k.OwnFile o) {n : Nat}
    {source text : String} {r : Except Diagnostic Compilation}
    (hrun : k.compileWithin n source text = .ok (r, k')) (hfiles' : k'.OwnFile o) :
    k₁.Later o k' := by
  have henter : k₁.Later o (k.enter source) :=
    h.turn (k.enter source).session k.world rfl rfl rfl hk.consistent.shared (.refl _) hfiles
  obtain ⟨k₂, files, hpass, hreached, rfl⟩ := passes_compileWithin hk hrun
  exact (henter.typing hpass).turn k₂.session _ rfl rfl rfl hreached.consistent.shared (.refl _)
    hfiles'

end Work

end Quasiquote
