import Quasiquote.Unit.Namespace

namespace Quasiquote

/-!
# Namespaces — loading only adds

Whatever is loaded, units stay under their own names, and those that were loaded before
stay as they are.

* `Namespace.Keyed`, `Namespace.Grows` — units under their own names, and namespaces with
  all units of another one;
* `Namespace.Keyed.publish`, `Namespace.grows_publish` — publishing keeps both;
* `Namespace.load_ok`, `Namespace.resolve_ok` — what a namespace answers;
* `Namespace.get?_load_of_ne`, `Namespace.get?_resolve_of_ne` — other names are left alone.
-/

namespace Namespace

/-- Whether every unit is kept under its own name. -/
def Keyed (ns : Namespace) : Prop := ∀ name u, ns.get? name = some u → u.name = name

/-- Whether a namespace has all units of another one. -/
def Grows (ns ns' : Namespace) : Prop := ∀ name u, ns.get? name = some u → ns'.get? name = some u

theorem Grows.refl (ns : Namespace) : Grows ns ns := fun _ _ => id

theorem Grows.trans {ns₁ ns₂ ns₃ : Namespace} (h : Grows ns₁ ns₂) (h' : Grows ns₂ ns₃) :
    Grows ns₁ ns₃ :=
  fun name u hu => h' name u (h name u hu)

theorem keyed_empty : Keyed {} := fun _ _ => nofun

theorem Keyed.insert {ns : Namespace} (h : ns.Keyed) (u : LoadedUnit) :
    Keyed (ns.insert u.name u) := by
  intro name v hv
  rw [NameMap.get?_insert] at hv
  split at hv
  · rename_i hname
    cases hv
    exact hname.symm
  · exact h name v hv

theorem Keyed.add {ns : Namespace} (h : ns.Keyed) (u : LoadedUnit) : (ns.add u).Keyed := by
  intro name v hv
  unfold Namespace.add at hv
  split at hv
  · exact h name v hv
  · exact h.insert u name v hv

theorem Keyed.publish {ns ns' : Namespace} (h : ns.Keyed) {units : List LoadedUnit}
    (hp : ns.publish units = .ok ns') : ns'.Keyed := by
  have hfold (units : List LoadedUnit) (ns : Namespace) (h : ns.Keyed) :
      (units.foldl Namespace.add ns).Keyed := by
    induction units generalizing ns with
    | nil => exact h
    | cons u units ih => exact ih _ (h.add u)
  unfold Namespace.publish at hp
  split at hp
  · cases hp
  · cases hp
    exact hfold units ns h

theorem grows_publish {ns ns' : Namespace} {units : List LoadedUnit}
    (hp : ns.publish units = .ok ns') : ns.Grows ns' :=
  fun _ _ => get?_publish_of_some hp

/-! ### What a namespace answers -/

variable {ns ns' : Namespace} {unit : String} {u : LoadedUnit}

/-- What is published for a name is the unit of the name. -/
theorem publishFor_ok {units : List LoadedUnit}
    (h : ns.publishFor unit units = .ok (u, ns')) :
    ns.publish units = .ok ns' ∧ ns'.get? unit = some u := by
  unfold publishFor at h
  split at h
  · cases h
  · rename_i ns₁ hp
    split at h
    · rename_i u₁ hu
      cases h
      exact ⟨hp, hu⟩
    · cases h

/-- What is loaded for a name is the unit of the name, and comes from one of the files. -/
theorem load_ok {files : Artifacts} (h : ns.load unit files = .ok (u, ns')) :
    ∃ units, decodeAll files.entries = .ok units ∧ ns.publish units = .ok ns' ∧
      ns'.get? unit = some u := by
  unfold load at h
  split at h
  · cases hd : decodeAll files.entries with
    | error e => rw [hd] at h; cases h
    | ok units =>
      rw [hd] at h
      exact ⟨units, rfl, publishFor_ok h⟩
  · cases h

/-- No directory has a file of a unit. -/
theorem fileOf_eq_none_iff {fs : Files} {classpath : List String} :
    fileOf fs classpath unit = none ↔
      ∀ root ∈ classpath, fs.text? (Path.ofText (unitPath root unit)) = none :=
  List.findSome?_eq_none_iff

/-- The unit of a name was loaded before, or it comes from the first file along the
    directories. -/
theorem resolve_ok {fs : Files} {classpath : List String}
    (h : ns.resolve fs classpath unit = .ok (u, ns')) :
    (ns' = ns ∧ ns.get? unit = some u) ∨
    ∃ text v, ns.get? unit = none ∧ fileOf fs classpath unit = some text ∧
      decode unit text = .ok v ∧ ns.publish [v] = .ok ns' ∧ ns'.get? unit = some u := by
  unfold resolve at h
  split at h
  · rename_i v hv
    cases h
    exact .inl ⟨rfl, hv⟩
  · rename_i hnone
    split at h
    · rename_i text htext
      cases hd : decode unit text with
      | error e => rw [hd] at h; cases h
      | ok v =>
        rw [hd] at h
        exact .inr ⟨text, v, hnone, htext, hd, publishFor_ok h⟩
    · cases h

/-! ### Other names -/

/-- A unit that is read for a name has it. -/
theorem decode_name {text : String} (h : decode unit text = .ok u) : u.name = unit := by
  unfold decode at h
  split at h
  · cases h
  · split at h
    · rename_i hname
      cases h
      exact hname
    · cases h

/-- A text is read for one name only. -/
theorem eq_of_decode {name text : String} {v : LoadedUnit} (h : decode unit text = .ok u)
    (h' : decode name text = .ok v) : unit = name := by
  have hu := decode_name h
  have hv := decode_name h'
  unfold decode at h h'
  split at h
  · cases h
  · rename_i w hw
    rw [hw] at h'
    dsimp only at h'
    split at h
    · split at h'
      · cases h
        cases h'
        exact hu.symm.trans hv
      · cases h'
    · cases h

/-- Publishing a unit leaves other names alone. -/
theorem get?_publish_of_ne {v : LoadedUnit} {name : String} (hp : ns.publish [v] = .ok ns')
    (h : name ≠ v.name) : ns'.get? name = ns.get? name := by
  unfold publish at hp
  split at hp
  · cases hp
  · cases hp
    show (ns.add v).get? name = _
    unfold add
    split
    · rfl
    · exact NameMap.get?_insert_of_ne _ h v

/-- Loading the file of a unit leaves other names alone. -/
theorem get?_load_of_ne {files : Artifacts} {text name : String}
    (hfiles : files.entries = [(unit, text)]) (h : ns.load unit files = .ok (u, ns'))
    (hne : name ≠ unit) : ns'.get? name = ns.get? name := by
  obtain ⟨units, hunits, hp, -⟩ := load_ok h
  rw [hfiles, decodeAll] at hunits
  cases hv : decode unit text with
  | error e => rw [hv] at hunits; cases hunits
  | ok v =>
    rw [hv] at hunits
    cases hunits
    exact get?_publish_of_ne hp (by rwa [decode_name hv])

/-- Looking a unit up leaves other names alone. -/
theorem get?_resolve_of_ne {fs : Files} {classpath : List String} {name : String}
    (h : ns.resolve fs classpath unit = .ok (u, ns')) (hne : name ≠ unit) :
    ns'.get? name = ns.get? name := by
  rcases resolve_ok h with ⟨rfl, -⟩ | ⟨text, v, -, -, hv, hp, -⟩
  · rfl
  · exact get?_publish_of_ne hp (by rwa [decode_name hv])

/-- A unit that is neither loaded nor in a file is not found. -/
theorem resolve_ne {fs : Files} {classpath : List String} {name : String}
    (h : ns.resolve fs classpath unit = .ok (u, ns')) (hname : ns.get? name = none)
    (hfile : fileOf fs classpath name = none) : unit ≠ name := by
  rintro rfl
  rcases resolve_ok h with ⟨-, hu⟩ | ⟨text, v, -, htext, -⟩
  · rw [hname] at hu
    cases hu
  · rw [hfile] at htext
    cases htext

end Namespace

end Quasiquote
