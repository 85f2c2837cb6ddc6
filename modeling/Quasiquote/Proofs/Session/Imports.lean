import Quasiquote.Proofs.Macro.Descriptor
import Quasiquote.Proofs.Session.Reachable

namespace Quasiquote

/-!
# Imports — when types of earlier sessions come in

A type comes in if there is a readable descriptor of it and the session finds the unit of each
record.  Looking one unit up keeps all other ones findable, so no order matters.

* `Namespace.map_fst_resolve`, `SessionM.fst_resolveUnit_after` — what is answered for the name of a
  unit, whatever was looked up before;
* `Namespace.exists_resolve_iff`, `Work.Resolves` — which units are found;
* `SessionM.resolveAll_cases` — the units of several records;
* `Descriptor.Offered`, `Descriptor.find_of_offered` — the first file of a descriptor;
* `Work.importType_cases` — when a type comes in;
* `Work.importType_ok`, `Work.Consistent.importType_true` — what comes in then.
-/

namespace Namespace

variable {ns ns' : Namespace} {fs : Files} {classpath : List String} {unit : String}

/-- The unit that is answered for a name is the loaded one, or the one in its first file. -/
theorem map_fst_resolve : (ns.resolve fs classpath unit).map Prod.fst =
    match ns.get? unit with
    | some u => .ok u
    | none => match fileOf fs classpath unit with
      | some text => decode unit text
      | none => .error (failure unit "unit not found on the classpath") := by
  unfold resolve
  cases hget : ns.get? unit with
  | some u => rfl
  | none =>
    cases fileOf fs classpath unit with
    | none => rfl
    | some text =>
      dsimp only
      cases hu : decode unit text with
      | error e => rfl
      | ok u =>
        have hfree : ns.get? u.name = none := by rwa [decode_name hu]
        have hpublish : ns.publish [u] = .ok (ns.insert u.name u) := by
          simp [publish, conflicts, add, NameMap.contains, hfree]
        show (ns.publishFor unit [u]).map Prod.fst = _
        rw [publishFor, hpublish]
        dsimp only
        rw [← decode_name hu, NameMap.get?_insert_self]
        rfl

/-- A unit is found if it is loaded, or if its first file holds it. -/
theorem exists_resolve_iff : (∃ p, ns.resolve fs classpath unit = .ok p) ↔
    (ns.get? unit).isSome = true ∨
      ∃ text u, fileOf fs classpath unit = some text ∧ decode unit text = .ok u := by
  constructor
  · rintro ⟨p, hp⟩
    rcases resolve_ok hp with ⟨-, hu⟩ | ⟨text, u, -, htext, hu, -⟩
    · exact .inl (Option.isSome_iff_exists.2 ⟨_, hu⟩)
    · exact .inr ⟨text, u, htext, hu⟩
  · intro h
    have hanswer := @map_fst_resolve ns fs classpath unit
    cases hresolve : ns.resolve fs classpath unit with
    | ok p => exact ⟨p, rfl⟩
    | error e =>
      rw [hresolve] at hanswer
      cases hget : ns.get? unit with
      | some u =>
        rw [hget] at hanswer
        cases hanswer
      | none =>
        obtain ⟨text, u, htext, hu⟩ := h.resolve_left (by simp [hget])
        rw [hget, htext] at hanswer
        cases hanswer.trans hu

/-- Looking a unit up changes no answer for any name. -/
theorem map_fst_resolve_after {other : String} {v : LoadedUnit}
    (h : ns.resolve fs classpath other = .ok (v, ns')) :
    (ns'.resolve fs classpath unit).map Prod.fst = (ns.resolve fs classpath unit).map Prod.fst := by
  by_cases hunit : unit = other
  · subst hunit
    have hget : ns'.get? unit = some v := by
      rcases resolve_ok h with ⟨rfl, hu⟩ | ⟨_, _, -, -, -, -, hu⟩
      · exact hu
      · exact hu
    rw [map_fst_resolve, hget, h]
    rfl
  · rw [map_fst_resolve, map_fst_resolve, get?_resolve_of_ne h hunit]

end Namespace

namespace SessionM

/-- What a session answers for the name of a unit. -/
theorem fst_resolveUnit (unit : String) (k : Work) : ((resolveUnit unit).run k).1 =
    if k.accepts then
      (k.units.resolve k.world.files k.session.settings.classpath unit).map Prod.fst
    else .error (Namespace.failure unit "verification failed") := by
  by_cases h : k.accepts = true
  · cases hresolve : k.units.resolve k.world.files k.session.settings.classpath unit <;>
      simp [resolveUnit, withUnits, ExceptT.run, ExceptT.mk, h, hresolve, Except.map]
  · simp [resolveUnit, withUnits, ExceptT.run, ExceptT.mk, h]

/-- Looking a unit up changes no answer for any name. -/
theorem fst_resolveUnit_after (unit other : String) (k : Work) :
    ((resolveUnit unit).run ((resolveUnit other).run k).2).1 = ((resolveUnit unit).run k).1 := by
  rcases withUnits_cases other (fun units k =>
    units.resolve k.world.files k.session.settings.classpath other) k with
    ⟨d, hrun⟩ | ⟨u, units, haccepts, hresolve, hrun⟩
  · rw [show (resolveUnit other).run k = _ from hrun]
  · rw [show (resolveUnit other).run k = _ from hrun, fst_resolveUnit, fst_resolveUnit]
    rw [Work.accepts_withUnits, Work.units_withUnits _ _ haccepts, Work.files_withUnits,
      Work.settings_withUnits, Namespace.map_fst_resolve_after hresolve]

/-- Looking the units of records up changes no answer for any name. -/
theorem fst_resolveUnit_resolveAll (unit : String) (rs : List MacroRecord) (k : Work) :
    ((resolveUnit unit).run ((resolveAll rs).run k).2).1 = ((resolveUnit unit).run k).1 := by
  induction rs generalizing k with
  | nil => rfl
  | cons r rs ih =>
    have hfirst := fst_resolveUnit_after unit r.unit k
    simp only [resolveAll, run_bind_apply]
    revert hfirst
    rcases (resolveUnit r.unit).run k with ⟨e | u, k₁⟩
    · exact id
    · intro hfirst
      have hrest := ih k₁
      dsimp only
      revert hrest
      rcases (resolveAll rs).run k₁ with ⟨e | us, k₂⟩
      · exact fun hrest => hrest.trans hfirst
      · exact fun hrest => hrest.trans hfirst

end SessionM

namespace Work

/-- Whether the session finds the unit of a name. -/
def Resolves (k : Work) (unit : String) : Prop :=
  ∃ u, ((SessionM.resolveUnit unit).run k).1 = .ok u

theorem resolves_iff {k : Work} {unit : String} : k.Resolves unit ↔ k.accepts = true ∧
    ∃ p, k.units.resolve k.world.files k.session.settings.classpath unit = .ok p := by
  unfold Resolves
  rw [SessionM.fst_resolveUnit]
  by_cases h : k.accepts = true
  · cases k.units.resolve k.world.files k.session.settings.classpath unit <;>
      simp [h, Except.map]
  · simp [h]

/-- Looking units up changes nothing about which ones are found. -/
theorem resolves_resolveAll {k : Work} {unit : String} (rs : List MacroRecord) :
    ((SessionM.resolveAll rs).run k).2.Resolves unit ↔ k.Resolves unit := by
  unfold Resolves
  rw [SessionM.fst_resolveUnit_resolveAll]

/-- Importing a type keeps every unit findable. -/
theorem Resolves.importType {k : Work} {unit : String} (h : k.Resolves unit) (name : String) :
    ((SessionM.importType name).run k).2.Resolves unit := by
  rw [SessionM.importType_run]
  cases Descriptor.find k.world.files name k.session.settings.classpath with
  | error e => exact h
  | ok found =>
    cases found with
    | none => exact h
    | some d =>
      have hall := (resolves_resolveAll d.macros).2 h
      dsimp only
      revert hall
      rcases (SessionM.resolveAll d.macros).run k with ⟨e | macros, k'⟩
      · exact id
      · intro hall
        rw [resolves_iff] at hall ⊢
        exact hall

end Work

/-- The units of records are all found, or the first one that is not found ends the search. -/
theorem SessionM.resolveAll_cases (rs : List MacroRecord) (k : Work) :
    (∃ macros, ((resolveAll rs).run k).1 = .ok macros ∧ ∀ r ∈ rs, k.Resolves r.unit) ∨
    ∃ pre r post e, rs = pre ++ r :: post ∧ (∀ r' ∈ pre, k.Resolves r'.unit) ∧
      ((resolveUnit r.unit).run k).1 = .error e ∧ ((resolveAll rs).run k).1 = .error e := by
  induction rs generalizing k with
  | nil => exact .inl ⟨[], rfl, fun r hr => absurd hr List.not_mem_nil⟩
  | cons r rs ih =>
    have hafter (unit : String) := fst_resolveUnit_after unit r.unit k
    simp only [resolveAll, run_bind_apply]
    cases hfirst : (resolveUnit r.unit).run k with
    | mk answer k₁ =>
    rw [hfirst] at hafter
    cases answer with
    | error e =>
      exact .inr ⟨[], r, rs, e, rfl, fun _ h => absurd h List.not_mem_nil, by rw [hfirst], rfl⟩
    | ok u =>
      have hr : k.Resolves r.unit := ⟨u, by rw [hfirst]⟩
      have hsame (unit : String) : k₁.Resolves unit ↔ k.Resolves unit := by
        unfold Work.Resolves
        rw [hafter unit]
      rcases ih k₁ with ⟨macros, hmacros, hall⟩ | ⟨pre, r', post, e, hsplit, hpre, hr', herror⟩
      · refine .inl ⟨(r, u) :: macros, ?_, ?_⟩
        · cases hrest : (resolveAll rs).run k₁ with
          | mk answer k₂ =>
          rw [hrest] at hmacros
          cases hmacros
          simp only [hrest, run_pure_apply]
        · rw [List.forall_mem_cons]
          exact ⟨hr, fun r' hr' => (hsame _).1 (hall r' hr')⟩
      · refine .inr ⟨r :: pre, r', post, e, by rw [hsplit, List.cons_append], ?_, ?_, ?_⟩
        · rw [List.forall_mem_cons]
          exact ⟨hr, fun r' hr' => (hsame _).1 (hpre r' hr')⟩
        · exact (hafter _).symm.trans hr'
        · cases hrest : (resolveAll rs).run k₁ with
          | mk answer k₂ =>
          rw [hrest] at herror
          cases herror
          simp only [hrest]

namespace Descriptor

/-- Whether the first file of a descriptor's name along directories holds the descriptor. -/
def Offered (d : Descriptor) (fs : Files) (classpath : List String) : Prop :=
  (classpath.findSome? fun root => fs.text? (Path.ofText (pathIn root d.name))) = some d.encode

/-- What is found comes from the first file. -/
theorem exists_of_find {fs : Files} {type : String} {classpath : List String} {d : Descriptor}
    (h : find fs type classpath = .ok (some d)) : ∃ root ∈ classpath, ∃ text,
      fs.text? (Path.ofText (pathIn root type)) = some text ∧ decode? text = some d := by
  induction classpath with
  | nil => cases h
  | cons root roots ih =>
    rw [find] at h
    split at h
    · obtain ⟨root', hroot', hd⟩ := ih h
      exact ⟨root', List.mem_cons_of_mem _ hroot', hd⟩
    · rename_i text htext
      split at h
      · rename_i d' hd
        cases h
        exact ⟨root, List.mem_cons_self, text, htext, hd⟩
      · cases h

/-- Only the texts of descriptors of the name matter. -/
theorem find_congr {fs fs' : Files} {type : String}
    (h : ∀ root, fs'.text? (Path.ofText (pathIn root type)) =
      fs.text? (Path.ofText (pathIn root type))) (classpath : List String) :
    find fs' type classpath = find fs type classpath := by
  induction classpath with
  | nil => rfl
  | cons root roots ih =>
    rw [find, find, h root, ih]

/-- A readable descriptor is found where it is offered. -/
theorem find_of_offered {d : Descriptor} (h : d.BlocksLast) {fs : Files}
    {classpath : List String} (hoffered : d.Offered fs classpath) :
    find fs d.name classpath = .ok (some d) := by
  induction classpath with
  | nil => cases hoffered
  | cons root roots ih =>
    unfold Offered at hoffered ih
    rw [List.findSome?_cons] at hoffered
    rw [find]
    revert hoffered
    cases fs.text? (Path.ofText (pathIn root d.name)) with
    | none => exact ih
    | some text =>
      intro htext
      dsimp only
      rw [Option.some.inj htext, decode?_encode h]

/-- Where a descriptor is offered, what is found is read from its text. -/
theorem decode?_of_offered {d d' : Descriptor} {fs : Files} {classpath : List String}
    (hoffered : d.Offered fs classpath) (h : find fs d.name classpath = .ok (some d')) :
    decode? d.encode = some d' := by
  induction classpath with
  | nil => cases h
  | cons root roots ih =>
    unfold Offered at hoffered ih
    rw [List.findSome?_cons] at hoffered
    rw [find] at h
    revert hoffered h
    cases fs.text? (Path.ofText (pathIn root d.name)) with
    | none => exact ih
    | some text =>
      intro htext h
      dsimp only at h
      split at h
      · rename_i d'' hdecode
        cases h
        rwa [Option.some.inj htext] at hdecode
      · cases h

/-- Where a descriptor is offered no other one is found. -/
theorem eq_of_offered {d d' : Descriptor} {fs : Files} {classpath : List String}
    (hoffered : d.Offered fs classpath) (h : find fs d.name classpath = .ok (some d')) :
    d' = d :=
  eq_of_decode?_encode (decode?_of_offered hoffered h)

end Descriptor

namespace Work

/-- Found units have the names that the records give. -/
theorem Consistent.name_resolveAll {k : Work} (h : k.Consistent) {rs : List MacroRecord}
    {macros : List (MacroRecord × LoadedUnit)}
    (hmacros : ((SessionM.resolveAll rs).run k).1 = .ok macros) :
    ∀ p ∈ macros, p.2.name = p.1.unit := by
  induction rs generalizing k macros with
  | nil =>
    cases hmacros
    exact fun p hp => absurd hp List.not_mem_nil
  | cons r rs ih =>
    obtain ⟨hc, -, hget⟩ := h.resolveUnit r.unit
    simp only [SessionM.resolveAll, run_bind_apply] at hmacros
    revert hc hget hmacros
    rcases (SessionM.resolveUnit r.unit).run k with ⟨e | u, k₁⟩
    · intro _ _ hmacros
      cases hmacros
    · intro hc hget hmacros
      have hu : u.name = r.unit := hc.keyed _ _ (hget u rfl)
      have hrest (ms : List (MacroRecord × LoadedUnit)) := @ih k₁ hc ms
      dsimp only at hmacros
      revert hrest hmacros
      rcases (SessionM.resolveAll rs).run k₁ with ⟨e | ms, k₂⟩
      · intro hmacros
        cases hmacros
      · intro hmacros hrest p hp
        cases hmacros
        rcases List.mem_cons.1 hp with rfl | hp
        · exact hu
        · exact hrest ms rfl p hp

/-- A type of which there is a descriptor comes in if all of its units are found.  Otherwise nothing
    of it does, and the failure is that of the first record whose unit is not found. -/
theorem importType_cases {k : Work} {name : String} {d : Descriptor}
    (hfind : Descriptor.find k.world.files name k.session.settings.classpath = .ok (some d)) :
    ((∀ r ∈ d.macros, k.Resolves r.unit) ∧ ((SessionM.importType name).run k).1 = .ok true) ∨
    ∃ pre r post e units, d.macros = pre ++ r :: post ∧ (∀ r' ∈ pre, k.Resolves r'.unit) ∧
      ((SessionM.resolveUnit r.unit).run k).1 = .error e ∧
      (SessionM.importType name).run k = (.error e, k.withUnits units) := by
  obtain ⟨units, hsame⟩ := SessionM.keeps_resolveAll d.macros k
  rw [SessionM.importType_run, hfind]
  dsimp only
  rcases SessionM.resolveAll_cases d.macros k with
    ⟨macros, hmacros, hall⟩ | ⟨pre, r, post, e, hsplit, hpre, hr, herror⟩
  · refine .inl ⟨hall, ?_⟩
    revert hmacros
    rcases (SessionM.resolveAll d.macros).run k with ⟨e | ms, k'⟩
    · intro hmacros
      cases hmacros
    · exact fun _ => rfl
  · refine .inr ⟨pre, r, post, e, units, hsplit, hpre, hr, ?_⟩
    revert hsame herror
    rcases (SessionM.resolveAll d.macros).run k with ⟨e' | ms, k'⟩
    · rintro rfl herror
      cases herror
      rfl
    · intro _ herror
      cases herror

/-- A type of which there is a descriptor comes in if its units are found. -/
theorem importType_of_resolves {k : Work} {name : String} {d : Descriptor}
    (hfind : Descriptor.find k.world.files name k.session.settings.classpath = .ok (some d))
    (hunits : ∀ r ∈ d.macros, k.Resolves r.unit) :
    ((SessionM.importType name).run k).1 = .ok true := by
  rcases importType_cases hfind with ⟨-, htrue⟩ | ⟨pre, r, post, e, _, hsplit, -, hr, -⟩
  · exact htrue
  · -- no record fails
    obtain ⟨u, hu⟩ := hunits r (by rw [hsplit]; exact List.mem_append_right _ List.mem_cons_self)
    rw [hr] at hu
    cases hu

/-- An import that does not succeed leaves all types alone. -/
theorem types_importType_of_ne {k : Work} {name : String}
    (h : ((SessionM.importType name).run k).1 ≠ .ok true) :
    ((SessionM.importType name).run k).2.session.types = k.session.types := by
  rw [SessionM.importType_run] at h ⊢
  revert h
  cases Descriptor.find k.world.files name k.session.settings.classpath with
  | error e => exact fun _ => rfl
  | ok found =>
    cases found with
    | none => exact fun _ => rfl
    | some d =>
      obtain ⟨units, hsame⟩ := SessionM.keeps_resolveAll d.macros k
      revert hsame
      dsimp only
      rcases (SessionM.resolveAll d.macros).run k with ⟨e | macros, k'⟩
      · rintro rfl -
        exact k.types_withUnits units
      · exact fun _ h => absurd rfl h

/-- A type that comes in is made of its descriptor and the units of the records. -/
theorem importType_ok {k : Work} {name : String}
    (htrue : ((SessionM.importType name).run k).1 = .ok true) : ∃ d macros units,
      Descriptor.find k.world.files name k.session.settings.classpath = .ok (some d) ∧
      ((SessionM.resolveAll d.macros).run k).1 = .ok macros ∧
      ((SessionM.importType name).run k).2 = ({ k with session := { k.session with
        types := k.session.types.install (.ofDescriptor d macros) } } : Work).withUnits units := by
  rw [SessionM.importType_run] at htrue ⊢
  revert htrue
  cases hfind : Descriptor.find k.world.files name k.session.settings.classpath with
  | error e =>
    intro htrue
    cases htrue
  | ok found =>
    cases found with
    | none =>
      intro htrue
      cases htrue
    | some d =>
      obtain ⟨units, hsame⟩ := SessionM.keeps_resolveAll d.macros k
      dsimp only
      cases hrun : (SessionM.resolveAll d.macros).run k with
      | mk answer k' =>
      rw [hrun] at hsame
      obtain rfl := hsame
      cases answer with
      | error e => exact fun htrue => nomatch htrue
      | ok macros =>
        refine fun _ => ⟨d, macros, units, rfl, by rw [hrun], ?_⟩
        obtain ⟨⟨_, _, backend⟩, world⟩ := k
        cases backend <;> rfl

/-- A type that comes in has its descriptor and the units that the records name. -/
theorem Consistent.importType_true {k : Work} (h : k.Consistent) {name : String}
    (htrue : ((SessionM.importType name).run k).1 = .ok true) : ∃ d macros units,
      Descriptor.find k.world.files name k.session.settings.classpath = .ok (some d) ∧
      macros.map Prod.fst = d.macros ∧ (∀ p ∈ macros, p.2.name = p.1.unit) ∧
      ((SessionM.importType name).run k).2 = ({ k with session := { k.session with
        types := k.session.types.install (.ofDescriptor d macros) } } : Work).withUnits units := by
  obtain ⟨d, macros, units, hfind, hmacros, hrun⟩ := importType_ok htrue
  exact ⟨d, macros, units, hfind, SessionM.map_fst_resolveAll d.macros k macros hmacros,
    h.name_resolveAll hmacros, hrun⟩

end Work

end Quasiquote
