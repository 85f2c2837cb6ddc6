import Quasiquote.Proofs.Session.Lineage
import Quasiquote.Proofs.Types.Chains
import Quasiquote.Proofs.Typing.Units

namespace Quasiquote

/-!
# Inheritance — what later sessions find

A session imports a type when a program mentions it, and nothing but this type.  So calls find the
macros and methods of earlier sessions as far up as the types above have been mentioned too.

* `Work.Imports` — what a session needs to import a type;
* `OwnerType.Mirrors` — types that answer calls alike;
* `Typer.mentions`, `Typer.mentions_apply` — types mentioned one after the other;
* `Work.Lineage.lookup_mentions` — all types of a chain are mentioned;
* `Work.Lineage.call_imported` — calls on an imported type.
-/

/-- Whether a session finds a descriptor and the units of its macros. -/
structure Work.Imports (k : Work) (d : Descriptor) : Prop where
  offered : d.Offered k.world.files k.session.settings.classpath
  last : d.BlocksLast
  units : ∀ r ∈ d.macros, k.Resolves r.unit

/-- Importing a type takes no other one away. -/
theorem Work.Imports.importType {k : Work} {d : Descriptor} (h : k.Imports d) (name : String) :
    ((SessionM.importType name).run k).2.Imports d := by
  obtain ⟨types, units, hsame⟩ := SessionM.keeps_importType name k
  refine ⟨?_, h.last, fun r hr => (h.units r hr).importType name⟩
  rw [hsame, files_withUnits, settings_withUnits]
  exact h.offered

/-- Whether a type answers calls as another one does, but for what is lost in a file. -/
structure OwnerType.Mirrors (t u : OwnerType) : Prop where
  superclass : u.superclass = t.superclass
  macros : u.macros.entries.map MacroEntry.record = t.macros.entries.map MacroEntry.record
  methods : ∀ x, u.methods.get? x = (t.methods.get? x).map Method.reread

/-- An imported type answers calls as the one that was written out. -/
theorem OwnerType.Lockstep.mirrors {t : OwnerType} (h : t.Lockstep) {d : Descriptor}
    (hd : t.descriptor = some d) {macros : List (MacroRecord × LoadedUnit)}
    (hrecords : macros.map Prod.fst = d.macros) (hunits : ∀ p ∈ macros, p.2.name = p.1.unit) :
    t.Mirrors (OwnerType.ofDescriptor d macros) where
  superclass := h.superclass d hd
  macros := (records_ofDescriptor hrecords hunits (h.descriptor_distinct hd).macros).trans
    (h.macros d hd)
  methods x := (methods_ofDescriptor macros (h.methodNames d hd) x).trans (h.methods d hd x)

namespace TypeRegistry

variable {r r' : TypeRegistry} {name : String}

/-- Whether the types of a name answer calls alike in two registries, or there is none in either. -/
def Mirrored (r r' : TypeRegistry) (name : String) : Prop :=
  r.get? name = none ∧ r'.get? name = none ∨
    ∃ t u, r.get? name = some t ∧ r'.get? name = some u ∧ t.Mirrors u

/-- Where all types of a chain answer calls alike, calls find the same macros and methods. -/
theorem lookup_of_mirrored (h : ∀ other, r.Reaches name other → Mirrored r r' other) :
    (∀ called argc block, (r'.lookupMacro name called argc block).map MacroEntry.record =
      (r.lookupMacro name called argc block).map MacroEntry.record) ∧
    ∀ called, r'.lookupMethod name called = (r.lookupMethod name called).map Method.reread := by
  constructor
  · intro called argc block
    simp only [lookupMacro, List.map_findSome?]
    refine findSome?_ancestors_of_matches fun other ho => (h other ho).imp_right ?_
    rintro ⟨t, u, ht, hu, hmirrors⟩
    refine ⟨t, u, ht, hu, hmirrors.superclass, ?_⟩
    simp only [Function.comp_def, MacroTable.map_record_resolve, hmirrors.macros]
  · intro called
    simp only [lookupMethod, List.map_findSome?]
    refine findSome?_ancestors_of_matches fun other ho => (h other ho).imp_right ?_
    rintro ⟨t, u, ht, hu, hmirrors⟩
    exact ⟨t, u, ht, hu, hmirrors.superclass, hmirrors.methods called⟩

end TypeRegistry

/-! ### Mentions -/

namespace Typer

/-- Mentions types as constants, one after the other. -/
def mentions (s : Span) : List String → TypeM Unit
  | [] => return ()
  | name :: names => do
    let _ ← constantType name s
    mentions s names

variable {t : Typing} {name : String} (s : Span)

/-- A type that is there is not imported. -/
theorem constantType_of_contains (h : t.work.session.types.contains name = true) :
    constantType name s t = .ok (.classOf name, t) := by
  simp only [constantType, TypeM.bind_apply, TypeM.session_apply, h, if_true, TypeM.pure_apply]

/-- A type that is not there is imported. -/
theorem constantType_of_imports (h : t.work.session.types.contains name = false)
    (htrue : ((SessionM.importType name).run t.work).1 = .ok true) :
    constantType name s t =
      .ok (.classOf name, { t with work := ((SessionM.importType name).run t.work).2 }) := by
  simp only [constantType, TypeM.bind_apply, TypeM.session_apply, h, Bool.false_eq_true, if_false,
    TypeM.attempt_apply, htrue, TypeM.pure_apply]

/-- A class of an earlier session is continued. -/
theorem openClass_of_imports {superclass : Option String} (hunit : superclass ≠ some extensionType)
    (h : t.work.session.types.contains name = false)
    (htrue : ((SessionM.importType name).run t.work).1 = .ok true)
    (hcontains : ((SessionM.importType name).run t.work).2.session.types.contains name = true) :
    openClass name superclass s t =
      .ok ((), { t with work := ((SessionM.importType name).run t.work).2 }) := by
  have hpersistent : (superclass != some extensionType) = true := by simpa using hunit
  simp only [openClass, hpersistent, TypeM.bind_apply, TypeM.session_apply, h, Bool.not_false,
    Bool.and_self, if_true, TypeM.attempt_apply, htrue, TypeM.modifySession_apply,
    TypeRegistry.openType, hcontains]

/-- A type that has an entry of its own for a call shows it. -/
theorem findMacro_of_resolve {env : Typer} {owner called : String} {argc : Nat} {block : Bool}
    {owners : List String} {u : OwnerType} {e : MacroEntry}
    (hpending : t.work.session.pending owner called = [])
    (hu : t.work.session.types.get? owner = some u)
    (he : u.macros.resolve called argc block = some e) :
    env.findMacro called argc block s (owner :: owners) t = .ok (.ok (some e), t) := by
  have hlookup : t.work.session.types.lookupMacro owner called argc block = some e :=
    TypeRegistry.findSome?_ancestors_iff.2 ⟨0, .here hu he⟩
  rw [findMacro]
  simp only [TypeM.bind_apply, TypeM.session_apply, hpending, buildPending, TypeM.pure_apply,
    if_true, hlookup]

/-- A call on a constant is expanded by the entry that the type shows once it has come in. -/
theorem infer_call_of_imports {env : Typer} {s' : Span} {called : String} {args : List Node}
    {block : Option Node} {e : MacroEntry} (scope : Scope)
    (h : t.work.session.types.contains name = false)
    (htrue : ((SessionM.importType name).run t.work).1 = .ok true)
    (hfound : env.findMacro called args.length block.isSome s [name]
        { t with work := ((SessionM.importType name).run t.work).2 } =
      .ok (.ok (some e), { t with work := ((SessionM.importType name).run t.work).2 })) :
    env.infer scope ⟨s, .call ⟨s', .constant name⟩ called args block⟩ t =
      env.expand scope e ⟨s, .call ⟨s', .constant name⟩ called args block⟩
        { t with work := ((SessionM.importType name).run t.work).2 } := by
  have hconstant := constantType_of_imports s' h htrue
  have howner : (TypeRef.classOf name).owner.toList = [name] := rfl
  simp only [infer, TypeM.bind_apply, hconstant, TypeM.pure_apply, howner, hfound]

end Typer

namespace Work.Lineage

open TypeRegistry (Mirrored)

section

variable {k : Work} (hk : k.Lineage)
include hk

/-- A type that comes in from the descriptor of another session answers calls as the type there, and
    no other type changes. -/
theorem mirrors_of_importType {l : Work} (hl : l.Lineage) {name : String} {u : OwnerType}
    {d : Descriptor} (hu : k.session.types.get? name = some u) (hd : u.descriptor = some d)
    (hoffered : d.Offered l.world.files l.session.settings.classpath)
    (htrue : ((SessionM.importType name).run l).1 = .ok true) :
    (∃ v, ((SessionM.importType name).run l).2.session.types.get? name = some v ∧ u.Mirrors v) ∧
      ∀ other, other ≠ name → ((SessionM.importType name).run l).2.session.types.get? other =
        l.session.types.get? other := by
  have hstep := hk.inStep.types u (NameMap.mem_values_of_get? hu)
  have hname : d.name = name := (hstep.name d hd).trans (hk.inStep.named name u hu)
  obtain ⟨d', macros, units, hfind, hrecords, hunits, hrun⟩ :=
    hl.reachable.consistent.importType_true htrue
  obtain rfl := Descriptor.eq_of_offered hoffered (hname.symm ▸ hfind)
  have hsame : (OwnerType.ofDescriptor d' macros).name = name := hname
  refine ⟨⟨_, ?_, hstep.mirrors hd hrecords hunits⟩, fun other hother => ?_⟩
  · rw [hrun, types_withUnits, ← hsame]
    exact TypeRegistry.get?_install_self _ _
  · rw [hrun, types_withUnits]
    exact TypeRegistry.get?_install_of_ne _ (hsame.symm ▸ hother)

/-- What a session has written out another one imports, and no other type changes. -/
theorem importType_mirrors {l : Work} (hl : l.Lineage) {name : String} {u : OwnerType}
    {d : Descriptor} (hu : k.session.types.get? name = some u) (hd : u.descriptor = some d)
    (himports : l.Imports d) : ((SessionM.importType name).run l).1 = .ok true ∧
      Mirrored k.session.types ((SessionM.importType name).run l).2.session.types name ∧
      ∀ other, other ≠ name → ((SessionM.importType name).run l).2.session.types.get? other =
        l.session.types.get? other := by
  have hname : d.name = name := ((hk.inStep.types u (NameMap.mem_values_of_get? hu)).name d hd).trans
    (hk.inStep.named name u hu)
  have hfind := Descriptor.find_of_offered himports.last himports.offered
  rw [hname] at hfind
  have htrue := importType_of_resolves hfind himports.units
  obtain ⟨⟨v, hv, hmirrors⟩, hothers⟩ := hk.mirrors_of_importType hl hu hd himports.offered htrue
  exact ⟨htrue, .inr ⟨u, v, hu, hv, hmirrors⟩, hothers⟩

/-- All types that are mentioned come in, whatever their order, and no other one does. -/
theorem mentions_apply (s : Span) {names : List String} {t : Typing} (ht : t.work.Lineage)
    (h : ∀ name ∈ names, ∃ u d, k.session.types.get? name = some u ∧ u.descriptor = some d ∧
      t.work.Imports d ∧ (t.work.session.types.contains name = false ∨
        Mirrored k.session.types t.work.session.types name)) :
    ∃ t', Typer.mentions s names t = .ok ((), t') ∧
      (∀ name ∈ names, Mirrored k.session.types t'.work.session.types name) ∧
      ∀ other, other ∉ names →
        t'.work.session.types.get? other = t.work.session.types.get? other := by
  induction names generalizing t with
  | nil => exact ⟨t, rfl, fun name hname => absurd hname List.not_mem_nil, fun _ _ => rfl⟩
  | cons name names ih =>
    obtain ⟨u, d, hu, hd, himports, hstate⟩ := h name List.mem_cons_self
    -- in both cases the type mirrors the one that was written once it has been mentioned
    obtain ⟨t₁, hmention, ht₁, hmirrored, hothers, hkept⟩ : ∃ t₁ : Typing,
        Typer.constantType name s t = .ok (.classOf name, t₁) ∧ t₁.work.Lineage ∧
        Mirrored k.session.types t₁.work.session.types name ∧
        (∀ other, other ≠ name →
          t₁.work.session.types.get? other = t.work.session.types.get? other) ∧
        ∀ d : Descriptor, t.work.Imports d → t₁.work.Imports d := by
      cases hcontains : t.work.session.types.contains name with
      | true =>
        have hmirrored := hstate.resolve_left (by simp [hcontains])
        exact ⟨t, Typer.constantType_of_contains s hcontains, ht, hmirrored, fun _ _ => rfl,
          fun _ => id⟩
      | false =>
        obtain ⟨htrue, hmirrored, hothers⟩ := hk.importType_mirrors ht hu hd himports
        exact ⟨_, Typer.constantType_of_imports s hcontains htrue, ht.step (.importType _ name),
          hmirrored, hothers, fun _ hd => hd.importType name⟩
    obtain ⟨t', hrest, hall, hrestOthers⟩ := ih ht₁ fun other hother => by
      obtain ⟨u', d', hu', hd', himports', hstate'⟩ := h other (List.mem_cons_of_mem _ hother)
      refine ⟨u', d', hu', hd', hkept d' himports', ?_⟩
      by_cases hname : other = name
      · exact .inr (hname ▸ hmirrored)
      · refine hstate'.imp (fun hnew => ?_) fun hold => ?_
        · simpa only [TypeRegistry.contains, NameMap.contains, TypeRegistry.get?] using
            (congrArg Option.isSome (hothers other hname)).trans hnew
        · unfold TypeRegistry.Mirrored at hold ⊢
          rwa [hothers other hname]
    refine ⟨t', ?_, fun other hother => ?_, fun other hother => ?_⟩
    · rw [Typer.mentions, TypeM.bind_apply, hmention]
      exact hrest
    · by_cases hmem : other ∈ names
      · exact hall other hmem
      · obtain rfl := (List.mem_cons.1 hother).resolve_right hmem
        unfold TypeRegistry.Mirrored at hmirrored ⊢
        rwa [hrestOthers other hmem]
    · rw [List.mem_cons, not_or] at hother
      exact (hrestOthers other hother.2).trans (hothers other hother.1)

/-- **Inheritance.** A later session in which every type on the way up from a type has been
    mentioned, as far as the types are not there anyway, finds the same macros and methods on the
    type: macros of the same signatures and units, and methods whose static types are those that
    names mean. -/
theorem lookup_mentions (s : Span) {type : String} {names : List String} {t : Typing}
    (ht : t.work.Lineage)
    (hnames : ∀ name ∈ names, ∃ u d, k.session.types.get? name = some u ∧
      u.descriptor = some d ∧ t.work.Imports d ∧ t.work.session.types.contains name = false)
    (hchain : ∀ other, k.session.types.Reaches type other →
      other ∈ names ∨ Mirrored k.session.types t.work.session.types other) :
    ∃ t', Typer.mentions s names t = .ok ((), t') ∧
      (∀ called argc block,
        (t'.work.session.types.lookupMacro type called argc block).map MacroEntry.record =
          (k.session.types.lookupMacro type called argc block).map MacroEntry.record) ∧
      ∀ called, t'.work.session.types.lookupMethod type called =
        (k.session.types.lookupMethod type called).map Method.reread := by
  obtain ⟨t', hmentions, hall, hothers⟩ := hk.mentions_apply s ht fun name hname => by
    obtain ⟨u, d, hu, hd, himports, hnew⟩ := hnames name hname
    exact ⟨u, d, hu, hd, himports, .inl hnew⟩
  refine ⟨t', hmentions, TypeRegistry.lookup_of_mirrored fun other hother => ?_⟩
  by_cases hmem : other ∈ names
  · exact hall other hmem
  · have hold := (hchain other hother).resolve_left hmem
    unfold TypeRegistry.Mirrored at hold ⊢
    rwa [hothers other hmem]

/-- A type that comes in answers a call with an entry of the same record. -/
theorem findMacro_importType {t : Typing} (ht : t.work.Lineage) {owner called : String} {argc : Nat}
    {block : Bool} {u : OwnerType} {d : Descriptor} {e : MacroEntry}
    (hu : k.session.types.get? owner = some u) (hd : u.descriptor = some d)
    (he : u.macros.resolve called argc block = some e) (himports : t.work.Imports d)
    (hpending : t.work.session.pending owner called = []) :
    ((SessionM.importType owner).run t.work).1 = .ok true ∧
    ((SessionM.importType owner).run t.work).2.session.types.contains owner = true ∧
    ∃ e', e'.record = e.record ∧ ∀ (env : Typer) (s : Span) (owners : List String),
      env.findMacro called argc block s (owner :: owners)
          { t with work := ((SessionM.importType owner).run t.work).2 } =
        .ok (.ok (some e'), { t with work := ((SessionM.importType owner).run t.work).2 }) := by
  obtain ⟨htrue, hmirrored, -⟩ := hk.importType_mirrors ht hu hd himports
  obtain ⟨v, hv, hmirrors⟩ : ∃ v,
      ((SessionM.importType owner).run t.work).2.session.types.get? owner = some v ∧
        u.Mirrors v := by
    rcases hmirrored with ⟨hnone, -⟩ | ⟨u', v, hu', hv, hmirrors⟩
    · rw [hu] at hnone
      cases hnone
    · rw [hu] at hu'
      cases hu'
      exact ⟨v, hv, hmirrors⟩
  -- the imported table answers the call with an entry of the same record
  have hsame : (v.macros.resolve called argc block).map MacroEntry.record = some e.record := by
    rw [MacroTable.map_record_resolve, hmirrors.macros, ← MacroTable.map_record_resolve, he]
    rfl
  obtain ⟨e', he', hrecord⟩ := Option.map_eq_some_iff.1 hsame
  have hlater : ((SessionM.importType owner).run t.work).2.session.pending owner called = [] := by
    obtain ⟨types, units, hkeeps⟩ := SessionM.keeps_importType owner t.work
    have hdefinitions : ((SessionM.importType owner).run t.work).2.session.definitions =
        t.work.session.definitions := by rw [hkeeps, definitions_withUnits]
    rwa [Session.pending, hdefinitions]
  exact ⟨htrue, congrArg Option.isSome hv, e', hrecord, fun env s owners =>
    Typer.findMacro_of_resolve s hlater hv he'⟩

/-- **Recorded macros.** A later session that is offered the descriptor of a type, does not have
    the type yet and finds its units expands every call that the type of the first session answers:
    a call on the constant, which imports the type, and an unqualified one in a class that is
    opened again.  The entry has the signature and the unit that the descriptor records. -/
theorem call_imported {t : Typing} (ht : t.work.Lineage) {owner called : String} {u : OwnerType}
    {d : Descriptor} {e : MacroEntry} {args : List Node} {block : Option Node}
    (hu : k.session.types.get? owner = some u) (hd : u.descriptor = some d)
    (he : u.macros.resolve called args.length block.isSome = some e)
    (himports : t.work.Imports d) (hnew : t.work.session.types.contains owner = false)
    (hpending : t.work.session.pending owner called = []) (env : Typer) (scope : Scope)
    (s s' : Span) :
    ∃ later e', e.record ∈ d.macros ∧ e'.record = e.record ∧
      env.infer scope ⟨s, .call ⟨s', .constant owner⟩ called args block⟩ t =
        env.expand scope e' ⟨s, .call ⟨s', .constant owner⟩ called args block⟩
          { t with work := later } ∧
      ∀ superclass, superclass ≠ some extensionType → owner ≠ "Any" → owner ≠ "Void" →
        Typer.openClass owner superclass s t = .ok ((), { t with work := later }) ∧
        env.infer (scope.inClass (.ofName owner)) ⟨s, .invoke called args block⟩
            { t with work := later } =
          env.expand (scope.inClass (.ofName owner)) e' ⟨s, .invoke called args block⟩
            { t with work := later } := by
  obtain ⟨htrue, hcontains, e', hrecord, hfound⟩ :=
    hk.findMacro_importType ht hu hd he himports hpending
  refine ⟨((SessionM.importType owner).run t.work).2, e', ?_, hrecord, ?_, ?_⟩
  · have hstep := hk.inStep.types u (NameMap.mem_values_of_get? hu)
    rw [hstep.macros d hd]
    exact List.mem_map_of_mem (List.mem_of_find?_eq_some he)
  · exact Typer.infer_call_of_imports s scope hnew htrue (hfound env s [])
  · intro superclass hunit hany hvoid
    refine ⟨Typer.openClass_of_imports s hunit hnew htrue hcontains, ?_⟩
    have howners : ∃ owners,
        (scope.inClass (TypeRef.ofName owner)).macroOwners = owner :: owners := by
      have hself : (scope.inClass (TypeRef.ofName owner)).selfType.owner = some owner :=
        TypeRef.owner_ofName hany hvoid
      unfold Scope.macroOwners
      rw [hself, Option.toList_some, List.cons_append, List.cons_append, List.eraseDups_cons]
      exact ⟨_, rfl⟩
    obtain ⟨owners, howners⟩ := howners
    simp only [Typer.infer, TypeM.bind_apply, howners, hfound]

end

/-! ### A class below another one -/

/-- A session defines a macro on one of its types. -/
theorem exists_registered {start : Work} (h : start.Lineage) {unit : LoadedUnit}
    (hunit : start.units.get? unit.name = some unit) {owner : String} {u : OwnerType}
    (hu : start.session.types.get? owner = some u) (spec : MacroSpec) : ∃ k : Work, k.Lineage ∧
      k.session.types.get? owner = some (Typer.withMacro spec unit.name unit u) ∧
      (∀ other, other ≠ owner →
        k.session.types.get? other = start.session.types.get? other) ∧
      k.units = start.units := by
  let met : MacroDefinition := { spec, owner, span := Span.zero, source := "main" }
  refine ⟨_, h.step (.registerMacro start met unit.name unit hunit),
    Typer.get?_registerMacro (d := met) unit.name unit hu, fun other hother => ?_, ?_⟩
  · rw [Typer.registerMacro_run, hu]
    exact TypeRegistry.get?_modify_of_ne _ _ hother
  · rw [Typer.registerMacro_run, hu]
    rfl

/-- A session opens a class and one below it, and defines a macro on the first. -/
theorem exists_chain {start : Work} (h : start.Lineage) {unit : LoadedUnit}
    (hunit : start.units.get? unit.name = some unit) {low high : String} (hne : high ≠ low)
    (hlow : start.session.types.get? low = none) (hhigh : start.session.types.get? high = none)
    (spec : MacroSpec) : ∃ k : Work, k.Lineage ∧
      k.session.types.get? high =
        some (Typer.withMacro spec unit.name unit (.ofProgram high none true)) ∧
      k.session.types.get? low = some (.ofProgram low (some high) true) ∧
      ∀ other, other ≠ high → other ≠ low →
        k.session.types.get? other = start.session.types.get? other := by
  let first : Work := { start with session := { start.session with
    types := start.session.types.openType high none true } }
  let opened : Work := { first with session := { first.session with
    types := first.session.types.openType low (some high) true } }
  have hopened : opened.Lineage :=
    (h.step (.openType start high none true)).step (.openType first low (some high) true)
  have hget (name : String) : opened.session.types.get? name =
      if name = low then some (.ofProgram low (some high) true)
      else if name = high then some (.ofProgram high none true)
      else start.session.types.get? name := by
    have hfirst (name : String) : first.session.types.get? name =
        if name = high then some (.ofProgram high none true)
        else start.session.types.get? name := by
      rw [show first.session.types.get? name = _ from TypeRegistry.get?_openType _ _ _ _ _]
      simp [hhigh]
    rw [show opened.session.types.get? name = _ from TypeRegistry.get?_openType _ _ _ _ _]
    simp [hfirst, hne.symm, hlow]
  have hclass : opened.session.types.get? high = some (.ofProgram high none true) := by
    rw [hget, if_neg hne, if_pos rfl]
  obtain ⟨k, hk, hmacro, hothers, -⟩ := exists_registered hopened hunit hclass spec
  refine ⟨k, hk, hmacro, ?_, fun other hother hother' => ?_⟩
  · rw [hothers low hne.symm, hget, if_pos rfl]
  · rw [hothers other hother, hget, if_neg hother', if_neg hother]

/-- A session that starts with the files of two types and with their units is offered both. -/
theorem exists_offered {k : Work} (hk : k.Lineage) (unit : LoadedUnit) {d d' : Descriptor}
    (hd : d ∈ k.session.types.descriptors) (hd' : d' ∈ k.session.types.descriptors)
    (hname : Path.ofText (Descriptor.pathIn "out" d.name) = ["out", d.name ++ ".kdesc"])
    (hname' : Path.ofText (Descriptor.pathIn "out" d'.name) = ["out", d'.name ++ ".kdesc"])
    (hne : d.name ++ ".kdesc" ≠ d'.name ++ ".kdesc") (hlast : d.BlocksLast) (hlast' : d'.BlocksLast)
    (hunits : ∀ r ∈ d.macros ++ d'.macros, r.unit = unit.name) : ∃ later : Work, later.Lineage ∧
      later.session.types = .initial "Script" ∧ later.session.definitions = [] ∧
      later.Imports d ∧ later.Imports d' := by
  let files := (({} : Files).set ["out", d.name ++ ".kdesc"] (.text d.encode)).set
    ["out", d'.name ++ ".kdesc"] (.text d'.encode)
  let units : Namespace := NameMap.empty.insert unit.name unit
  let later : Work := ⟨Session.start { classpath := ["out"] } (.own units), { files }⟩
  have hlater : later.Lineage := start_offered _ (Namespace.keyed_empty.insert unit) hk
    fun p text htext => by
      rcases Files.text?_set htext with rfl | htext
      · exact ⟨d', hd', rfl⟩
      · rcases Files.text?_set htext with rfl | htext
        · exact ⟨d, hd, rfl⟩
        · rw [Files.text?_empty] at htext
          cases htext
  have htext : files.text? ["out", d.name ++ ".kdesc"] = some d.encode := by
    rw [Files.text?_set_of_ne _ _ (by simpa using hne)]
    simp [Files.text?, Files.get?_set]
  have htext' : files.text? ["out", d'.name ++ ".kdesc"] = some d'.encode := by
    simp [files, Files.text?, Files.get?_set]
  have hresolves (r : MacroRecord) (hr : r.unit = unit.name) : later.Resolves r.unit := by
    rw [hr]
    exact resolves_iff.2 ⟨rfl, Namespace.exists_resolve_iff.2
      (.inl (Option.isSome_iff_exists.2 ⟨unit, NameMap.get?_insert_self _ _ _⟩))⟩
  refine ⟨later, hlater, rfl, rfl, ⟨?_, hlast, fun r hr => ?_⟩, ⟨?_, hlast', fun r hr => ?_⟩⟩
  · show d.Offered files ["out"]
    rw [Descriptor.Offered, List.findSome?_cons, hname, htext]
  · exact hresolves r (hunits r (List.mem_append_left _ hr))
  · show d'.Offered files ["out"]
    rw [Descriptor.Offered, List.findSome?_cons, hname', htext']
  · exact hresolves r (hunits r (List.mem_append_right _ hr))

/-- A session has written a class `A` with a macro `m` and a class `B` below it, and a session that
    starts with neither is offered both. -/
theorem exists_written_chain : ∃ (k later : Work) (a b : OwnerType) (da db : Descriptor)
    (e : MacroEntry), (k.Lineage ∧ later.Lineage) ∧
    (k.session.types.get? "A" = some a ∧ a.descriptor = some da ∧ later.Imports da) ∧
    (k.session.types.get? "B" = some b ∧ b.descriptor = some db ∧ later.Imports db) ∧
    (a.macros.resolve "m" 0 false = some e ∧ k.session.types.lookupMacro "B" "m" 0 false = some e) ∧
    (∀ name ∈ ["B", "A"], later.session.types.contains name = false) ∧
    later.session.definitions = [] ∧
    ∀ other, k.session.types.Reaches "B" other →
      other ∈ ["B", "A"] ∨ Mirrored k.session.types later.session.types other := by
  let unit := LoadedUnit.named "kiln.macros.A$Extension1"
  let units : Namespace := NameMap.empty.insert unit.name unit
  have hstart : Lineage ⟨Session.start {} (.own units), {}⟩ :=
    start_empty {} (Namespace.keyed_empty.insert unit)
  have hnew : ∀ name ∈ ["B", "A"], (TypeRegistry.initial "Script").contains name = false := by
    have : ["B", "A"].all (fun name => !(TypeRegistry.initial "Script").contains name) = true := by
      decide +kernel
    simpa using List.all_eq_true.1 this
  have hnone (name : String) (h : name ∈ ["B", "A"]) :
      (TypeRegistry.initial "Script").get? name = none :=
    Option.isNone_iff_eq_none.1 (by
      simpa [TypeRegistry.contains, NameMap.contains, TypeRegistry.get?] using hnew name h)
  obtain ⟨o, ho, hroot, hmethods⟩ : ∃ o, (TypeRegistry.initial "Script").get? rootType = some o ∧
      o.superclass = none ∧ o.methods.entries = [] := by
    have : ((TypeRegistry.initial "Script").get? rootType).any
        (fun o => o.superclass.isNone && o.methods.entries.isEmpty) = true := by decide +kernel
    obtain ⟨o, ho, hroot⟩ := (Option.any_eq_true _ _).1 this
    simp only [Bool.and_eq_true, Option.isNone_iff_eq_none, List.isEmpty_iff] at hroot
    exact ⟨o, ho, hroot.1, hroot.2⟩
  have hmirrors : o.Mirrors o := ⟨rfl, rfl, fun x => by simp [NameMap.get?, hmethods, NameMap.find]⟩
  let spec : MacroSpec := ⟨"m", [], ⟨Span.zero, .nil⟩⟩
  obtain ⟨k, hk, hA, hB, hother⟩ := exists_chain hstart (NameMap.get?_insert_self _ _ unit)
    (by decide : "A" ≠ "B") (hnone "B" (by simp)) (hnone "A" (by simp)) spec
  let da : Descriptor :=
    { name := "A", superclass := some rootType, macros := [⟨"m", ⟨[]⟩, unit.name⟩] }
  let db : Descriptor := { name := "B", superclass := some "A" }
  obtain ⟨later, hlater, htypes, hdefinitions, himportsA, himportsB⟩ := exists_offered hk unit
    (TypeRegistry.mem_descriptors hA (rfl : _ = some da))
    (TypeRegistry.mem_descriptors hB (rfl : _ = some db)) (by decide +kernel) (by decide +kernel)
    (by decide +kernel) (by simp [Descriptor.BlocksLast, da, Signature.blockLast])
    (by simp [Descriptor.BlocksLast, db]) (by simp [da, db])
  let e : MacroEntry := ⟨"m", ⟨[]⟩, .full, unit⟩
  refine ⟨k, later, _, _, da, db, e, ⟨hk, hlater⟩, ⟨hA, rfl, himportsA⟩, ⟨hB, rfl, himportsB⟩,
    ⟨rfl, ?_⟩, htypes ▸ hnew, hdefinitions, fun other hreaches => ?_⟩
  · exact TypeRegistry.findSome?_ancestors_iff.2 ⟨1, .up hB rfl rfl (.here hA rfl)⟩
  · -- the chain leads from `B` to `A` and to the root
    have hO : k.session.types.get? rootType = some o :=
      (hother rootType (by decide) (by decide)).trans ho
    cases hreaches with
    | refl => exact .inl List.mem_cons_self
    | up h hparent hreaches =>
      rw [hB] at h
      cases h
      cases hparent
      cases hreaches with
      | refl => exact .inl (List.mem_cons_of_mem _ List.mem_cons_self)
      | up h hparent hreaches =>
        rw [show (some "A").getD rootType = "A" from rfl, hA] at h
        cases h
        cases hparent
        cases hreaches with
        | refl => exact .inr (.inr ⟨o, o, hO, htypes ▸ ho, hmirrors⟩)
        | up h hparent _ =>
          rw [show (none : Option String).getD rootType = rootType from rfl, hO] at h
          cases h
          rw [hroot] at hparent
          cases hparent

/-- Once both classes are mentioned the macro is found on the lower one. -/
theorem lookup_mentions_chain : ∃ (k : Work) (t t' : Typing) (e : MacroEntry),
    k.session.types.lookupMacro "B" "m" 0 false = some e ∧
    Typer.mentions Span.zero ["B", "A"] t = .ok ((), t') ∧
    (t'.work.session.types.lookupMacro "B" "m" 0 false).map MacroEntry.record = some e.record := by
  obtain ⟨k, later, a, b, da, db, e, ⟨hk, hlater⟩, ⟨hA, hda, himportsA⟩, ⟨hB, hdb, himportsB⟩,
    ⟨-, hlookup⟩, hnew, -, hchain⟩ := exists_written_chain
  let t : Typing := { work := later }
  obtain ⟨t', hmentions, hmacros, -⟩ := lookup_mentions hk Span.zero (show t.work.Lineage from hlater)
    (fun name hname => by
      rcases List.mem_cons.1 hname with rfl | hname'
      · exact ⟨b, db, hB, hdb, himportsB, hnew _ hname⟩
      · obtain rfl := List.mem_singleton.1 hname'
        exact ⟨a, da, hA, hda, himportsA, hnew _ hname⟩) hchain
  exact ⟨k, t, t', e, hlookup, hmentions, (hmacros "m" 0 false).trans (by rw [hlookup]; rfl)⟩

/-- A call on the upper class is expanded by the entry of its descriptor. -/
theorem call_imported_class : ∃ (k : Work) (t : Typing) (d : Descriptor) (e : MacroEntry),
    k.session.types.lookupMacro "B" "m" 0 false = some e ∧
    ∃ later e', e.record ∈ d.macros ∧ e'.record = e.record ∧
      Typer.infer ⟨Typer.require 1, 0, none⟩ (.script "Script")
          ⟨Span.zero, .call ⟨Span.zero, .constant "A"⟩ "m" [] none⟩ t =
        Typer.expand ⟨Typer.require 1, 0, none⟩ (.script "Script") e'
          ⟨Span.zero, .call ⟨Span.zero, .constant "A"⟩ "m" [] none⟩ { t with work := later } := by
  obtain ⟨k, later, a, b, da, db, e, ⟨hk, hlater⟩, ⟨hA, hda, himportsA⟩, -, ⟨he, hlookup⟩, hnew,
    hdefinitions, -⟩ := exists_written_chain
  let t : Typing := { work := later }
  have hpending : t.work.session.pending "A" "m" = [] := by
    simp [Session.pending, show later.session.definitions = [] from hdefinitions, t]
  obtain ⟨later', e', hmem, hrecord, hcall, -⟩ := @call_imported k hk t hlater "A" "m" a da e [] none
    hA hda he himportsA (hnew "A" (by simp)) hpending ⟨Typer.require 1, 0, none⟩ (.script "Script")
    Span.zero Span.zero
  exact ⟨k, t, da, e, hlookup, later', e', hmem, hrecord, hcall⟩

end Work.Lineage

end Quasiquote
