import Quasiquote.Proofs.Session.Inheritance

namespace Quasiquote

/-!
# Incoming types — what an import changes

A session that imports a type installs what the first descriptor file of the name describes.  The
type comes in under the name that stands in the file, and it comes in with all of its macros or not
at all.

* `Work.importType_frame` — the type that an import changes, and all others;
* `Typer.infer_call_of_fails` — calls on a type that cannot come in;
* `Work.Lineage.calls_need_units` — calls on a type of an earlier session, which are expanded if
  all of its units are found and only then.
-/

/-! ### The registry -/

namespace Work

/-- **Theorem.** An import that does not succeed leaves all types alone.  One that succeeds installs
    the type that the first descriptor file of the name describes, under the name that stands in
    the file, and leaves all other types alone.  So there is a type of the name that was asked for
    if the file tells this name, and otherwise only if there was one before. -/
theorem importType_frame (k : Work) (name : String) :
    let r := (SessionM.importType name).run k
    (r.1 ≠ .ok true → r.2.session.types = k.session.types) ∧
    (r.1 = .ok true → ∃ d macros,
      Descriptor.find k.world.files name k.session.settings.classpath = .ok (some d) ∧
      macros.map Prod.fst = d.macros ∧
      r.2.session.types.get? d.name = some (.ofDescriptor d macros) ∧
      (∀ other, other ≠ d.name → r.2.session.types.get? other = k.session.types.get? other) ∧
      (r.2.session.types.contains name = true ↔
        d.name = name ∨ k.session.types.contains name = true)) := by
  intro r
  refine ⟨types_importType_of_ne, fun htrue => ?_⟩
  obtain ⟨d, macros, units, hfind, hmacros, hrun⟩ := importType_ok htrue
  have htypes : r.2.session.types = k.session.types.install (.ofDescriptor d macros) := by
    rw [show r.2 = _ from hrun, types_withUnits]
  have hself : r.2.session.types.get? d.name = some (.ofDescriptor d macros) := by
    rw [htypes]
    exact TypeRegistry.get?_install_self _ _
  have hothers (other : String) (hother : other ≠ d.name) :
      r.2.session.types.get? other = k.session.types.get? other := by
    rw [htypes]
    exact TypeRegistry.get?_install_of_ne _ hother
  refine ⟨d, macros, hfind, SessionM.map_fst_resolveAll _ _ _ hmacros, hself, hothers, ?_⟩
  -- nothing but the name in the file can have brought the type in
  by_cases hname : d.name = name
  · subst hname
    exact ⟨fun _ => .inl rfl, fun _ => congrArg Option.isSome hself⟩
  · have hsame : r.2.session.types.contains name = k.session.types.contains name :=
      congrArg Option.isSome (hothers name (Ne.symm hname))
    rw [hsame, or_iff_right hname]

/-- A file may tell another name than its own, and then there is no type of the name that was asked
    for. -/
theorem importType_frame_renamed : ∃ (k : Work) (d : Descriptor), d.name = "Script" ∧
    ((SessionM.importType "A").run k).1 = .ok true ∧
    ((SessionM.importType "A").run k).2.session.types.get? "Script" =
      some (.ofDescriptor d []) ∧
    ((SessionM.importType "A").run k).2.session.types.contains "A" = false := by
  let d : Descriptor := { name := "Script" }
  let k : Work := ⟨Session.start { classpath := ["lib"] } .shared,
    { files := ({} : Files).set ["lib", "A.kdesc"] (.text d.encode) }⟩
  have hpath : Path.ofText (Descriptor.pathIn "lib" "A") = ["lib", "A.kdesc"] := by decide +kernel
  have hlast : d.BlocksLast := by simp [Descriptor.BlocksLast, d]
  have hfind : Descriptor.find k.world.files "A" k.session.settings.classpath = .ok (some d) := by
    have htext : k.world.files.text? ["lib", "A.kdesc"] = some d.encode := rfl
    rw [show k.session.settings.classpath = ["lib"] from rfl, Descriptor.find, hpath, htext]
    dsimp only
    rw [Descriptor.decode?_encode hlast]
  have hnew : k.session.types.contains "A" = false := by decide +kernel
  have hunits (r : MacroRecord) (hr : r ∈ d.macros) : k.Resolves r.unit :=
    absurd hr List.not_mem_nil
  clear_value k
  have htrue := importType_of_resolves hfind hunits
  obtain ⟨d', macros, hfind', hrecords, hself, -, hcontains⟩ := (importType_frame k "A").2 htrue
  rw [hfind] at hfind'
  cases hfind'
  obtain rfl : macros = [] := List.map_eq_nil_iff.1 hrecords
  refine ⟨k, d, rfl, htrue, hself, Bool.eq_false_iff.2 fun hthere => ?_⟩
  rcases hcontains.1 hthere with hname | hbefore
  · exact absurd hname (by decide)
  · rw [hnew] at hbefore
    cases hbefore

end Work

/-! ### Calls -/

namespace Typer

variable {t : Typing} {name : String} (s : Span)

/-- A constant whose type cannot come in may have any type. -/
theorem constantType_of_fails {e : Diagnostic} {units : Namespace}
    (h : t.work.session.types.contains name = false)
    (hfails : (SessionM.importType name).run t.work = (.error e, t.work.withUnits units)) :
    constantType name s t = .ok (.any, { t with
      work := t.work.withUnits units
      errors := t.errors ++ [e.reanchor s t.work.session.source] }) := by
  have hsource : (t.work.withUnits units).session.source = t.work.session.source := by
    obtain ⟨_, _, hsame⟩ := t.work.withUnits_eq units
    rw [hsame]
  simp only [constantType, TypeM.bind_apply, TypeM.session_apply, h, Bool.false_eq_true, if_false,
    TypeM.attempt_apply, hfails, TypeM.collectAt, TypeM.collect, TypeM.modify_apply, hsource,
    TypeM.pure_apply]

/-- A call on a constant whose type cannot come in is no macro call. -/
theorem infer_call_of_fails {e : Diagnostic} {units : Namespace}
    (h : t.work.session.types.contains name = false)
    (hfails : (SessionM.importType name).run t.work = (.error e, t.work.withUnits units))
    (env : Typer) (scope : Scope) (s' : Span) (called : String) (args : List Node)
    (block : Option Node) :
    env.infer scope ⟨s', .call ⟨s, .constant name⟩ called args block⟩ t = (do
      let args ← env.inferAll scope args
      let block ← env.inferBlock scope block
      return (⟨s', .call ⟨s, .constant name⟩ called args block⟩, .any) : TypeM (Node × TypeRef))
        { t with
          work := t.work.withUnits units
          errors := t.errors ++ [e.reanchor s t.work.session.source] } := by
  have hconstant := constantType_of_fails s h hfails
  have howner : TypeRef.any.owner = none := rfl
  simp only [infer, TypeM.bind_apply, hconstant, TypeM.pure_apply, howner, Option.toList_none,
    findMacro, methodType]

end Typer

namespace Work.Lineage

/-- **All or nothing.** A later session that is offered the descriptor of a type and does not have
    the type yet expands calls on it if it finds the units of all records: each call that the type
    of the first session answers, by an entry of the same signature and unit.  If it does not, the
    first record whose unit is not found ends the import with its error, and no call on the type is
    expanded, not even one of a macro whose unit is found. -/
theorem calls_need_units {k : Work} (hk : k.Lineage) {t : Typing} (ht : t.work.Lineage)
    {owner : String} {u : OwnerType} {d : Descriptor}
    (hu : k.session.types.get? owner = some u) (hd : u.descriptor = some d)
    (hoffered : d.Offered t.work.world.files t.work.session.settings.classpath)
    (hlast : d.BlocksLast) (hnew : t.work.session.types.contains owner = false)
    (env : Typer) (scope : Scope) (s s' : Span) :
    ((∀ r ∈ d.macros, t.work.Resolves r.unit) → ∀ called args block e,
      u.macros.resolve called args.length block.isSome = some e →
      t.work.session.pending owner called = [] → ∃ later e', e'.record = e.record ∧
        env.infer scope ⟨s, .call ⟨s', .constant owner⟩ called args block⟩ t =
          env.expand scope e' ⟨s, .call ⟨s', .constant owner⟩ called args block⟩
            { t with work := later }) ∧
    ((¬ ∀ r ∈ d.macros, t.work.Resolves r.unit) → ∃ pre r post error units,
      d.macros = pre ++ r :: post ∧ (∀ r' ∈ pre, t.work.Resolves r'.unit) ∧
      ((SessionM.resolveUnit r.unit).run t.work).1 = .error error ∧ ∀ called args block,
        env.infer scope ⟨s, .call ⟨s', .constant owner⟩ called args block⟩ t = (do
          let args ← env.inferAll scope args
          let block ← env.inferBlock scope block
          return (⟨s, .call ⟨s', .constant owner⟩ called args block⟩, .any) :
            TypeM (Node × TypeRef))
          { t with
            work := t.work.withUnits units
            errors := t.errors ++ [error.reanchor s' t.work.session.source] }) := by
  constructor
  · intro hunits called args block e he hpending
    obtain ⟨htrue, -, e', hrecord, hfound⟩ :=
      hk.findMacro_importType ht hu hd he ⟨hoffered, hlast, hunits⟩ hpending
    exact ⟨_, e', hrecord, Typer.infer_call_of_imports s scope hnew htrue (hfound env s [])⟩
  · -- the file is found under the name of the type, so it is a unit that the import fails for
    intro hmissing
    have hname : d.name = owner :=
      ((hk.inStep.types u (NameMap.mem_values_of_get? hu)).name d hd).trans
        (hk.inStep.named owner u hu)
    have hfind := Descriptor.find_of_offered hlast hoffered
    rw [hname] at hfind
    obtain ⟨hall, -⟩ | ⟨pre, r, post, error, units, hsplit, hpre, hr, hfails⟩ :=
      importType_cases hfind
    · exact absurd hall hmissing
    · exact ⟨pre, r, post, error, units, hsplit, hpre, hr, fun called args block =>
        Typer.infer_call_of_fails s' hnew hfails env scope s called args block⟩

/-- A session has written a class `A` with two macros, and a later one finds the unit of the first
    macro but not that of the second. -/
theorem exists_damaged : ∃ (k later : Work) (a : OwnerType) (d : Descriptor) (e : MacroEntry),
    (k.Lineage ∧ later.Lineage) ∧
    (k.session.types.get? "A" = some a ∧ a.descriptor = some d) ∧
    (d.Offered later.world.files later.session.settings.classpath ∧ d.BlocksLast) ∧
    later.session.types.contains "A" = false ∧
    (a.macros.resolve "m" 0 false = some e ∧ later.Resolves e.record.unit) ∧
    ∃ r ∈ d.macros, ¬ later.Resolves r.unit := by
  let first := LoadedUnit.named "kiln.macros.A$Extension1"
  let second := LoadedUnit.named "kiln.macros.A$Extension2"
  let found : Namespace := NameMap.empty.insert first.name first
  have hne : first.name ≠ second.name := by decide
  have hkeyed : found.Keyed := Namespace.keyed_empty.insert first
  have hfirst : found.get? first.name = some first := NameMap.get?_insert_self _ _ _
  -- the session that defines the macros
  let start : Work := ⟨Session.start {} (.own (found.insert second.name second)), {}⟩
  let opened : Work := { start with session := { start.session with
    types := start.session.types.openType "A" none true } }
  have hopened : opened.Lineage :=
    (start_empty {} (hkeyed.insert second)).step (.openType start "A" none true)
  have hnone : (TypeRegistry.initial "Script").get? "A" = none :=
    Option.isNone_iff_eq_none.1 (by decide +kernel)
  have hclass : opened.session.types.get? "A" = some (.ofProgram "A" none true) := by
    rw [show opened.session.types.get? "A" = _ from TypeRegistry.get?_openType _ _ _ _ _]
    exact if_pos ⟨rfl, hnone⟩
  obtain ⟨one, hone, hm, -, hunits⟩ := exists_registered hopened
    (show opened.units.get? first.name = some first from
      (NameMap.get?_insert_of_ne _ hne _).trans hfirst) hclass ⟨"m", [], ⟨Span.zero, .nil⟩⟩
  obtain ⟨k, hk, hn, -, -⟩ := exists_registered hone
    (show one.units.get? second.name = some second from
      hunits ▸ NameMap.get?_insert_self _ _ _) hm ⟨"n", [], ⟨Span.zero, .nil⟩⟩
  let d : Descriptor := { name := "A", superclass := some rootType, macros :=
    [⟨"m", ⟨[]⟩, first.name⟩, ⟨"n", ⟨[]⟩, second.name⟩] }
  -- the session that lacks the second unit
  let later : Work := ⟨Session.start { classpath := ["out"] } (.own found),
    { files := ({} : Files).set ["out", "A.kdesc"] (.text d.encode) }⟩
  have hlater : later.Lineage := start_offered _ hkeyed hk fun p text htext =>
    (Files.text?_set htext).elim (fun hd => ⟨d, TypeRegistry.mem_descriptors hn rfl, hd⟩)
      fun hold => by rw [Files.text?_empty] at hold; cases hold
  have hpath : Path.ofText (Descriptor.pathIn "out" "A") = ["out", "A.kdesc"] := by decide +kernel
  have hoffered : d.Offered later.world.files ["out"] := by
    have htext : later.world.files.text? ["out", "A.kdesc"] = some d.encode := rfl
    rw [Descriptor.Offered, List.findSome?_cons, hpath, htext]
  have hlast : d.BlocksLast := by simp [Descriptor.BlocksLast, d, Signature.blockLast]
  have hresolves : later.Resolves first.name := resolves_iff.2
    ⟨rfl, Namespace.exists_resolve_iff.2 (.inl (Option.isSome_iff_exists.2 ⟨first, hfirst⟩))⟩
  have hmissing : ¬ later.Resolves second.name := by
    intro h
    have hfile (root : String) (hroot : root ∈ ["out"]) :
        later.world.files.text? (Path.ofText (unitPath root second.name)) = none := by
      rw [List.mem_singleton.1 hroot, Files.text?_set_of_ne _ _ (by decide +kernel),
        Files.text?_empty]
    rcases Namespace.exists_resolve_iff.1 (resolves_iff.1 h).2 with hloaded | ⟨text, _, htext, -⟩
    · exact absurd hloaded (by decide)
    · cases (Namespace.fileOf_eq_none_iff.2 hfile).symm.trans htext
  exact ⟨k, later, _, d, ⟨"m", ⟨[]⟩, .full, first⟩, ⟨hk, hlater⟩, ⟨hn, rfl⟩, ⟨hoffered, hlast⟩,
    congrArg Option.isSome hnone, ⟨rfl, hresolves⟩, _,
    List.mem_cons_of_mem _ List.mem_cons_self, hmissing⟩

/-- The macro whose unit is there is not called either. -/
theorem calls_need_units_damaged : ∃ (k : Work) (t t' : Typing) (a : OwnerType) (e : MacroEntry),
    k.session.types.get? "A" = some a ∧ a.macros.resolve "m" 0 false = some e ∧
    t.work.Resolves e.record.unit ∧ t'.errors ≠ [] ∧
    Typer.infer ⟨Typer.require 1, 0, none⟩ (.script "Script")
        ⟨Span.zero, .call ⟨Span.zero, .constant "A"⟩ "m" [] none⟩ t =
      .ok ((⟨Span.zero, .call ⟨Span.zero, .constant "A"⟩ "m" [] none⟩, .any), t') := by
  obtain ⟨k, later, a, d, e, ⟨hk, hlater⟩, ⟨ha, hd⟩, ⟨hoffered, hlast⟩, hnew, ⟨he, hresolves⟩,
    r, hr, hmissing⟩ := exists_damaged
  let t : Typing := { work := later }
  obtain ⟨-, hdamaged⟩ := calls_need_units hk (show t.work.Lineage from hlater) ha hd hoffered hlast
    hnew ⟨Typer.require 1, 0, none⟩ (.script "Script") Span.zero Span.zero
  obtain ⟨_, _, _, error, units, -, -, -, hcall⟩ := hdamaged fun hall => hmissing (hall r hr)
  exact ⟨k, t, _, a, e, ha, he, hresolves, by simp, hcall "m" [] none⟩

end Work.Lineage

end Quasiquote
