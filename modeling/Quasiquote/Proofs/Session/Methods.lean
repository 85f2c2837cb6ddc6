import Quasiquote.Proofs.Session.Inheritance

namespace Quasiquote

/-!
# Methods of imported types — static types that are read back from names

A descriptor writes a static type as a name, and a name is read as the type that it means in a
program.  Types that programs can name come back.  A class as a value is written like its instances
and comes back as one of them, so what calls of a method that answers a class may be used for changes
with the session.

* `TypeRef.Nameable`, `TypeRef.ofName_name_iff` — the types that their names mean;
* `Method.reread_eq_self_iff` — the methods that come back as they are;
* `Typer.methodType_of_get?`, `Typer.ownMethodType_of_get?` — the types of calls of methods that a
  type has itself;
* `Work.Lineage.methods_imported` — what a later session knows of the methods of a type.
-/

namespace TypeRef

/-- The names that do not stand for types of programs. -/
def keywords : List String :=
  ["Any", "Void", "Int", "Float", "String", "Bool", "Nil", "Node", "Block"]

/-- Whether a type is what its name means in a program: it is no class as a value, and no type of a
    program under a name that means something else. -/
def Nameable : TypeRef → Prop
  | .named name => name ∉ keywords
  | .classOf _ => False
  | _ => True

instance : DecidablePred Nameable
  | .named name => inferInstanceAs (Decidable (name ∉ keywords))
  | .classOf _ => .isFalse id
  | .any | .void | .int | .float | .str | .bool | .nil | .node | .block => .isTrue trivial

/-- A name that is not taken means the type of a program. -/
theorem ofName_of_not_mem {name : String} (h : name ∉ keywords) : ofName name = .named name := by
  unfold ofName
  split
  all_goals first | rfl | exact absurd (by decide) h

theorem nameable_ofName (name : String) : (ofName name).Nameable := by
  by_cases h : name ∈ keywords
  · simp only [keywords, List.mem_cons, List.not_mem_nil, or_false] at h
    rcases h with rfl | rfl | rfl | rfl | rfl | rfl | rfl | rfl | rfl
    all_goals exact trivial
  · rw [ofName_of_not_mem h]
    exact h

/-- The types that come back from their names. -/
theorem ofName_name_iff {t : TypeRef} : ofName t.name = t ↔ t.Nameable := by
  constructor
  · intro h
    rw [← h]
    exact nameable_ofName t.name
  · intro h
    cases t
    case named name => exact ofName_of_not_mem h
    case classOf name => exact h.elim
    all_goals rfl

theorem map_ofName_name_iff {ts : List TypeRef} :
    (ts.map TypeRef.name).map ofName = ts ↔ ∀ t ∈ ts, t.Nameable := by
  have hsame := @List.map_inj_left _ _ ts (ofName ∘ name) id
  rw [List.map_id] at hsame
  rw [List.map_map, hsame]
  exact forall₂_congr fun t _ => ofName_name_iff

end TypeRef

namespace Method

theorem reread_eq (m : Method) : m.reread =
    ⟨m.name, (m.params.map TypeRef.name).map TypeRef.ofName, TypeRef.ofName m.returns.name⟩ := rfl

/-- A method comes back from its record if and only if all of its types can be named. -/
theorem reread_eq_self_iff {m : Method} :
    m.reread = m ↔ m.returns.Nameable ∧ ∀ t ∈ m.params, t.Nameable := by
  obtain ⟨name, params, returns⟩ := m
  rw [reread_eq, mk.injEq, TypeRef.map_ofName_name_iff, TypeRef.ofName_name_iff, and_comm]
  simp only [true_and, and_comm]

end Method

/-! ### Calls -/

namespace Typer

variable {t : Typing} {owner x : String} {u : OwnerType} {m : Method}

/-- Parameters have types that can be named. -/
theorem nameable_parameterType (p : Parameter) : (parameterType p).Nameable := by
  unfold parameterType
  split
  · exact trivial
  · cases p.typeName with
    | none => exact trivial
    | some name => exact TypeRef.nameable_ofName name

theorem lookupMethod_of_get? {r : TypeRegistry} (hu : r.get? owner = some u)
    (hm : u.methods.get? x = some m) : r.lookupMethod owner x = some m :=
  TypeRegistry.findSome?_ancestors_iff.2 ⟨0, .here hu hm⟩

/-- The call of a method that the type of the receiver has itself. -/
theorem methodType_of_get? {receiver : TypeRef} (howner : receiver.owner = some owner)
    (hu : t.work.session.types.get? owner = some u) (hm : u.methods.get? x = some m) (s : Span) :
    methodType receiver x s t =
      .ok (if x = "new" ∧ receiver = .classOf owner then .ofName owner else m.returns, t) := by
  have hlookup := lookupMethod_of_get? hu hm
  unfold methodType
  rw [howner]
  cases receiver
  case classOf name =>
    obtain rfl : name = owner := Option.some.inj howner
    by_cases hnew : x = "new"
    · simp [hnew, TypeM.pure_apply]
    · simp [hnew, TypeM.bind_apply, TypeM.session_apply, TypeM.pure_apply, hlookup]
  all_goals simp [TypeM.bind_apply, TypeM.session_apply, TypeM.pure_apply, hlookup]

/-- The call on `self` of a method that the type of `self` has itself. -/
theorem ownMethodType_of_get? {scope : Scope} (hu : t.work.session.types.get? scope.owner = some u)
    (hm : u.methods.get? x = some m) (s : Span) :
    ownMethodType scope x s t = .ok (m.returns, t) := by
  have hlookup := lookupMethod_of_get? hu hm
  simp only [ownMethodType, TypeM.bind_apply, TypeM.session_apply, hlookup, TypeM.pure_apply]

end Typer

/-! ### Imported types -/

namespace Work.Lineage

variable {k l : Work} {name : String} {u : OwnerType} {d : Descriptor}

/-- A later session that imports a type from its descriptor knows the methods that the type has, and
    no other ones.  A method is the same as before if and only if all of its static types can be
    named; those of parameters and those that are declared can.  If what a method answers can be
    named, then its calls on the type, on a class and on `self` have the same static type in both
    sessions. -/
theorem methods_imported (hk : k.Lineage) (hu : k.session.types.get? name = some u)
    (hd : u.descriptor = some d) (hl : l.Lineage)
    (hoffered : d.Offered l.world.files l.session.settings.classpath)
    (htrue : ((SessionM.importType name).run l).1 = .ok true) :
    let later := ((SessionM.importType name).run l).2
    (∃ v, later.session.types.get? name = some v ∧
      ∀ x, (u.methods.get? x = none → v.methods.get? x = none) ∧
        ∀ m, u.methods.get? x = some m →
          v.methods.get? x = some ⟨m.name, m.params.map fun t => .ofName t.name, .ofName m.returns.name⟩ ∧
          (v.methods.get? x = some m ↔ m.returns.Nameable ∧ ∀ t ∈ m.params, t.Nameable)) ∧
    (∀ p, (Typer.parameterType p).Nameable) ∧ (∀ x, (TypeRef.ofName x).Nameable) ∧
    ∀ x m, u.methods.get? x = some m → m.returns.Nameable →
      ∀ (s : Span) (t t' : Typing), t.work = k → t'.work = later →
        (∀ receiver : TypeRef, receiver.owner = some name →
          let type := if x = "new" ∧ receiver = .classOf name then .ofName name else m.returns
          Typer.methodType receiver x s t = .ok (type, t) ∧
          Typer.methodType receiver x s t' = .ok (type, t')) ∧
        ∀ scope : Scope, scope.owner = name →
          Typer.ownMethodType scope x s t = .ok (m.returns, t) ∧
          Typer.ownMethodType scope x s t' = .ok (m.returns, t') := by
  intro later
  obtain ⟨⟨v, hv, hmirrors⟩, -⟩ := hk.mirrors_of_importType hl hu hd hoffered htrue
  refine ⟨⟨v, hv, fun x => ⟨fun hnone => ?_, fun m hm => ?_⟩⟩, Typer.nameable_parameterType,
    TypeRef.nameable_ofName, ?_⟩
  · rw [hmirrors.methods, hnone, Option.map_none]
  · have hreread : v.methods.get? x = some m.reread := by rw [hmirrors.methods, hm, Option.map_some]
    refine ⟨?_, ?_⟩
    · rw [hreread, Method.reread_eq, List.map_map]
      rfl
    · rw [hreread, Option.some.injEq, Method.reread_eq_self_iff]
  · intro x m hm hreturns s t t' ht ht'
    have hreread : v.methods.get? x = some m.reread := by rw [hmirrors.methods, hm, Option.map_some]
    have hsame : m.reread.returns = m.returns := TypeRef.ofName_name_iff.2 hreturns
    have hv' : later.session.types.get? name = some v := hv
    rw [← ht] at hu
    rw [← ht'] at hv'
    refine ⟨fun receiver howner => ?_, ?_⟩
    · refine ⟨Typer.methodType_of_get? howner hu hm s, ?_⟩
      rw [Typer.methodType_of_get? howner hv' hreread s, hsame]
    · rintro scope rfl
      refine ⟨Typer.ownMethodType_of_get? hu hm s, ?_⟩
      rw [Typer.ownMethodType_of_get? hv' hreread s, hsame]

/-- A method that answers a text is the same in a later session, and one that answers a class is
    not. -/
theorem methods_imported_class : ∃ (k later : Work) (u v : OwnerType),
    k.Lineage ∧ k.session.types.get? "Kit" = some u ∧
    later.session.types.get? "Kit" = some v ∧
    (u.methods.get? "title" = some ⟨"title", [.any], .str⟩ ∧
      v.methods.get? "title" = u.methods.get? "title") ∧
    (u.methods.get? "kind" = some ⟨"kind", [], .classOf "Kit"⟩ ∧
      v.methods.get? "kind" = some ⟨"kind", [], .named "Kit"⟩) ∧
    ∀ s, Typer.methodType (.named "Kit") "title" s { work := k } = .ok (.str, { work := k }) ∧
      Typer.methodType (.named "Kit") "title" s { work := later } = .ok (.str, { work := later }) := by
  let units : Namespace := NameMap.empty
  have hkeyed : units.Keyed := Namespace.keyed_empty
  -- the session that declares the methods
  let title : Method := ⟨"title", [.any], .str⟩
  let kind : Method := ⟨"kind", [], .classOf "Kit"⟩
  let start : Work := ⟨Session.start {} (.own units), {}⟩
  let opened : Work := { start with session := { start.session with
    types := start.session.types.openType "Kit" none true } }
  let declared : Work := { opened with session := { opened.session with
    types := opened.session.types.modify "Kit" (·.define title) } }
  let k : Work := { declared with session := { declared.session with
    types := declared.session.types.modify "Kit" (·.define kind) } }
  have hk : k.Lineage := (((start_empty {} hkeyed).step (.openType start "Kit" none true)).step
    (.declare opened "Kit" title)).step (.declare declared "Kit" kind)
  let u := ((OwnerType.ofProgram "Kit" none true).define title).define kind
  have hu : k.session.types.get? "Kit" = some u := by
    have hnew : start.session.types.get? "Kit" = none :=
      Option.isNone_iff_eq_none.1 (by decide +kernel)
    have hopened : opened.session.types.get? "Kit" = some (.ofProgram "Kit" none true) := by
      rw [show opened.session.types.get? "Kit" = _ from TypeRegistry.get?_openType _ _ _ _ _,
        if_pos ⟨rfl, hnew⟩]
    exact TypeRegistry.get?_modify_self (TypeRegistry.get?_modify_self hopened _) _
  let d : Descriptor := { name := "Kit", superclass := some "Object", methods :=
    [⟨"title", ["Any"], "String"⟩, ⟨"kind", [], "Kit"⟩] }
  have hd : u.descriptor = some d := rfl
  -- the session that imports the type
  let later : Work := ⟨Session.start { classpath := ["out"] } (.own units),
    { files := ({} : Files).set ["out", "Kit.kdesc"] (.text d.encode) }⟩
  have hlater : later.Lineage := start_offered _ hkeyed hk fun p text htext =>
    (Files.text?_set htext).elim (fun hnew => ⟨d, TypeRegistry.mem_descriptors hu hd, hnew⟩)
      fun hold => by rw [Files.text?_empty] at hold; cases hold
  have hpath : Path.ofText (Descriptor.pathIn "out" "Kit") = ["out", "Kit.kdesc"] := by
    decide +kernel
  have hoffered : d.Offered later.world.files ["out"] := by
    have htext : later.world.files.text? ["out", "Kit.kdesc"] = some d.encode := rfl
    rw [Descriptor.Offered, List.findSome?_cons, hpath, htext]
  have hlast : d.BlocksLast := by simp [Descriptor.BlocksLast, d]
  have htrue : ((SessionM.importType "Kit").run later).1 = .ok true :=
    importType_of_resolves (Descriptor.find_of_offered hlast hoffered)
      fun r hr => absurd hr List.not_mem_nil
  have himported := methods_imported hk hu hd hlater hoffered htrue
  obtain ⟨imported, hlast⟩ : ∃ l, ((SessionM.importType "Kit").run later).2 = l := ⟨_, rfl⟩
  rw [hlast] at himported
  obtain ⟨⟨v, hv, hmethods⟩, -, -, hcalls⟩ := himported
  have htitle : u.methods.get? "title" = some title := by decide
  have hkind : u.methods.get? "kind" = some kind := by decide
  refine ⟨k, imported, u, v, hk, hu, hv, ⟨htitle, ?_⟩, ⟨hkind, ?_⟩, fun s => ?_⟩
  · rw [((hmethods "title").2 title htitle).2.2 (by decide), htitle]
  · exact ((hmethods "kind").2 kind hkind).1
  · have hown := (hcalls "title" title htitle (by decide) s { work := k } { work := imported }
      rfl rfl).1 (.named "Kit") rfl
    simpa using hown

end Work.Lineage

end Quasiquote
