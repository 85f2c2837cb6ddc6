import Quasiquote.Proofs.Types.Registry

namespace Quasiquote

/-!
# The type registry — the macros that are visible from a type

A call on a type searches the type and those above it.  Methods are declared, and the
classes of units are opened, all the time; neither makes a macro visible.

* `TypeRegistry.Above`, `TypeRegistry.Hides` — the types that a search looks at, and
  whether it finds no macro of a name;
* `TypeRegistry.lookupMacro_of_hides` — such a search;
* `TypeRegistry.Extends` — a registry with more methods and more classes of units: the same
  macros are there (`TypeRegistry.Extends.entriesOf`) and the same ones are visible
  (`TypeRegistry.Extends.hides`).
-/

/-- A table without entries of a name answers no call of it. -/
theorem MacroTable.resolve_of_not_contains {m : MacroTable} {x : String}
    (h : m.contains x = false) (argc : Nat) (block : Bool) : m.resolve x argc block = none := by
  simp only [contains, List.any_eq_false, beq_iff_eq] at h
  simp only [resolve, List.find?_eq_none, MacroEntry.fits, Bool.and_eq_true, beq_iff_eq]
  exact fun e he hfits => h e he hfits.1

/-- The macros that the descriptor of a type lists. -/
def OwnerType.records (t : OwnerType) : List MacroRecord :=
  t.descriptor.toList.flatMap Descriptor.macros

@[simp] theorem OwnerType.records_define (t : OwnerType) (m : Method) :
    (t.define m).records = t.records := by
  unfold records define
  cases t.descriptor <;> rfl

namespace TypeRegistry

/-- The entries in the table of the type of a name. -/
def entriesOf (r : TypeRegistry) (name : String) : List MacroEntry :=
  (r.get? name).toList.flatMap fun t => t.macros.entries

/-- The macros that the descriptor of the type of a name lists. -/
def recordsOf (r : TypeRegistry) (name : String) : List MacroRecord :=
  (r.get? name).toList.flatMap OwnerType.records

variable {r r' r'' : TypeRegistry} {name x : String}

/-! ### Searches -/

/-- A type of a name, and the types above it. -/
inductive Above (r : TypeRegistry) : String → OwnerType → Prop
  | here {name : String} {t : OwnerType} (h : r.get? name = some t) : Above r name t
  | up {name parent : String} {t u : OwnerType} (h : r.get? name = some t)
      (hparent : t.superclass = some parent) (hu : Above r parent u) : Above r name u

/-- Whether no macro `x` is visible from the type of a name. -/
def Hides (r : TypeRegistry) (x name : String) : Prop :=
  ∀ t, r.Above name t → t.macros.contains x = false

/-- A search looks at nothing but the type and those above it. -/
theorem above_of_mem_chain {n : Nat} {t : OwnerType} (h : t ∈ r.chain n (r.get? name)) :
    r.Above name t := by
  induction n generalizing name with
  | zero =>
    cases hget : r.get? name with
    | none => simp [hget, chain] at h
    | some u =>
      obtain rfl : t = u := by simpa [hget, chain] using h
      exact .here hget
  | succ n ih =>
    cases hget : r.get? name with
    | none => simp [hget, chain] at h
    | some u =>
      rw [hget, chain] at h
      rcases List.mem_cons.1 h with rfl | h
      · exact .here hget
      · cases hparent : u.superclass with
        | none => simp [hparent, chain] at h
        | some parent =>
          rw [hparent, Option.bind_some] at h
          exact .up hget hparent (ih h)

theorem lookupMacro_of_hides (h : r.Hides x name) (argc : Nat) (block : Bool) :
    r.lookupMacro name x argc block = none := by
  rw [lookupMacro, List.findSome?_eq_none_iff]
  exact fun t ht => MacroTable.resolve_of_not_contains (h t (above_of_mem_chain ht)) argc block

theorem Above.exists_get? {t : OwnerType} (h : r.Above name t) : ∃ name', r.get? name' = some t := by
  induction h with
  | here h => exact ⟨_, h⟩
  | up _ _ _ ih => exact ih

/-- The entries in the tables of all types. -/
def entries (r : TypeRegistry) : List MacroEntry :=
  r.types.values.flatMap fun t => t.macros.entries

theorem mem_entries_of_get? {t : OwnerType} {e : MacroEntry} (h : r.get? name = some t)
    (he : e ∈ t.macros.entries) : e ∈ r.entries :=
  List.mem_flatMap.2 ⟨t, NameMap.mem_values_of_get? h, he⟩

/-- A name that no table knows is not visible. -/
theorem hides_of_entries (h : ∀ e ∈ r.entries, e.name ≠ x) (name : String) : r.Hides x name := by
  intro t ht
  obtain ⟨name', hget⟩ := ht.exists_get?
  rw [MacroTable.contains, List.any_eq_false]
  intro e he
  simpa using h e (mem_entries_of_get? hget he)

/-- Where tables name no units, nothing is visible. -/
theorem hides_of_units (h : r.units = []) (x name : String) : r.Hides x name := by
  refine hides_of_entries (fun e he => ?_) name
  obtain ⟨t, ht, he⟩ := List.mem_flatMap.1 he
  have hmem : e.unit ∈ r.units := List.mem_flatMap.2 ⟨t, ht, List.mem_map_of_mem he⟩
  rw [h] at hmem
  cases hmem

/-- Declaring a method adds no entries. -/
theorem mem_entries_define {m : Method} {e : MacroEntry}
    (h : e ∈ (r.modify name (·.define m)).entries) : e ∈ r.entries :=
  (mem_flatMap_modify h).elim id fun ⟨_, ht, he⟩ => mem_entries_of_get? ht he

/-- Opening a type adds no entries. -/
theorem mem_entries_openType {superclass : Option String} {persistent : Bool} {e : MacroEntry}
    (h : e ∈ (r.openType name superclass persistent).entries) : e ∈ r.entries := by
  unfold openType at h
  split at h
  · exact h
  · exact (mem_flatMap_insert h).elim (fun he => absurd he List.not_mem_nil) id

/-- Whether the type of a name itself has a method `x`. -/
def Declares (r : TypeRegistry) (name x : String) : Prop :=
  ∃ t, r.get? name = some t ∧ (t.methods.get? x).isSome = true

/-- The methods of a type itself are found first. -/
theorem Declares.isSome_lookupMethod (h : r.Declares name x) :
    (r.lookupMethod name x).isSome = true := by
  obtain ⟨t, h, hx⟩ := h
  obtain ⟨m, hm⟩ := Option.isSome_iff_exists.1 hx
  have hfirst : ∃ above, r.ancestors name = t :: above := by
    unfold ancestors
    rw [h]
    cases r.types.size with
    | zero => exact ⟨_, rfl⟩
    | succ n => exact ⟨_, rfl⟩
  obtain ⟨above, habove⟩ := hfirst
  simp [lookupMethod, habove, hm]

/-! ### More methods and more units -/

theorem scriptType_openType (r : TypeRegistry) (unit : String) (superclass : Option String)
    (persistent : Bool) : (r.openType unit superclass persistent).scriptType = r.scriptType := by
  unfold openType
  split <;> rfl

/-- A type that is there is not opened again. -/
theorem get?_openType (r : TypeRegistry) (unit : String) (superclass : Option String)
    (persistent : Bool) (name : String) :
    (r.openType unit superclass persistent).get? name =
      if name = unit ∧ r.get? unit = none then some (.ofProgram unit superclass persistent)
      else r.get? name := by
  have hcontains : r.contains unit = (r.get? unit).isSome := rfl
  unfold openType
  cases hunit : r.get? unit with
  | some t => simp [hcontains, hunit]
  | none =>
    have hinsert : (r.types.insert unit (OwnerType.ofProgram unit superclass persistent)).get? name =
        if name = unit then some (.ofProgram unit superclass persistent) else r.types.get? name :=
      NameMap.get?_insert _ _ _ _
    simp only [hcontains, hunit, Option.isSome_none, Bool.false_eq_true, if_false, and_true]
    exact hinsert

/-- Whether one registry has all types of another, with the same macros and the same types
    above them, and classes of units besides, which have no macros. -/
structure Extends (r r' : TypeRegistry) : Prop where
  scriptType : r'.scriptType = r.scriptType
  kept : ∀ name t, r.get? name = some t → ∃ t', r'.get? name = some t' ∧
    t'.macros = t.macros ∧ t'.records = t.records ∧ t'.superclass = t.superclass
  declared : ∀ name x, r.Declares name x → r'.Declares name x
  new : ∀ name t', r.get? name = none → r'.get? name = some t' →
    t'.macros = {} ∧ t'.records = [] ∧ t'.superclass = some extensionType

/-- A method that is declared on a type that is there. -/
theorem declares_define {t : OwnerType} (h : r.get? name = some t) (m : Method) :
    (r.modify name (·.define m)).Declares name m.name :=
  ⟨t.define m, get?_modify_self h _, by simp [OwnerType.define]⟩

/-- A class that is opened is there. -/
theorem exists_openType (r : TypeRegistry) (name : String) (superclass : Option String)
    (persistent : Bool) : ∃ t, (r.openType name superclass persistent).get? name = some t := by
  rw [get?_openType]
  cases hget : r.get? name with
  | none => exact ⟨_, if_pos ⟨rfl, rfl⟩⟩
  | some t => exact ⟨t, by simp⟩

namespace Extends

theorem refl (r : TypeRegistry) : Extends r r where
  scriptType := rfl
  kept _ t h := ⟨t, h, rfl, rfl, rfl⟩
  declared _ _ h := h
  new _ _ h h' := by rw [h] at h'; cases h'

theorem trans (h : Extends r r') (h' : Extends r' r'') : Extends r r'' where
  scriptType := h'.scriptType.trans h.scriptType
  kept name t ht := by
    obtain ⟨t', ht', hmacros, hrecords, hparent⟩ := h.kept name t ht
    obtain ⟨t'', ht'', hmacros', hrecords', hparent'⟩ := h'.kept name t' ht'
    exact ⟨t'', ht'', hmacros'.trans hmacros, hrecords'.trans hrecords, hparent'.trans hparent⟩
  declared name x hx := h'.declared name x (h.declared name x hx)
  new name t'' hnone ht'' := by
    cases hget : r'.get? name with
    | none => exact h'.new name t'' hget ht''
    | some t' =>
      obtain ⟨hmacros, hrecords, hparent⟩ := h.new name t' hnone hget
      obtain ⟨u, hu, hmacros', hrecords', hparent'⟩ := h'.kept name t' hget
      rw [ht''] at hu
      cases hu
      exact ⟨hmacros'.trans hmacros, hrecords'.trans hrecords, hparent'.trans hparent⟩

/-- Declaring a method. -/
theorem define (r : TypeRegistry) (owner : String) (m : Method) :
    Extends r (r.modify owner (·.define m)) := by
  have hget := get?_modify r owner (·.define m)
  refine ⟨rfl, fun name t ht => ?_, fun name x hx => ?_, fun name t' hnone ht' => ?_⟩
  · by_cases hname : name = owner
    · subst hname
      refine ⟨t.define m, ?_, rfl, t.records_define m, rfl⟩
      rw [hget, if_pos rfl, ht, Option.map_some]
    · exact ⟨t, by rw [hget, if_neg hname, ht], rfl, rfl, rfl⟩
  · obtain ⟨t, ht, hx⟩ := hx
    by_cases hname : name = owner
    · subst hname
      refine ⟨t.define m, by rw [hget, if_pos rfl, ht, Option.map_some], ?_⟩
      simp only [OwnerType.define, NameMap.get?_insert]
      split
      · rfl
      · exact hx
    · exact ⟨t, by rw [hget, if_neg hname, ht], hx⟩
  · by_cases hname : name = owner
    · subst hname
      rw [hget, if_pos rfl, hnone] at ht'
      cases ht'
    · rw [hget, if_neg hname, hnone] at ht'
      cases ht'

/-- Opening the class of a unit. -/
theorem openUnit (r : TypeRegistry) (unit : String) :
    Extends r (r.openType unit (some extensionType) false) := by
  have hget (name : String) := get?_openType r unit (some extensionType) false name
  have hsame {name : String} {t : OwnerType} (ht : r.get? name = some t) :
      (r.openType unit (some extensionType) false).get? name = some t := by
    have hnot : ¬ (name = unit ∧ r.get? unit = none) := by
      rintro ⟨rfl, hnone⟩
      rw [ht] at hnone
      cases hnone
    rw [hget, if_neg hnot, ht]
  refine ⟨scriptType_openType r _ _ _, fun name t ht => ⟨t, hsame ht, rfl, rfl, rfl⟩,
    fun name x ⟨t, ht, hx⟩ => ⟨t, hsame ht, hx⟩, fun name t' hnone ht' => ?_⟩
  · rw [hget] at ht'
    split at ht'
    · cases ht'
      exact ⟨rfl, rfl, rfl⟩
    · rw [hnone] at ht'
      cases ht'

variable (h : Extends r r')
include h

/-- No table gets an entry or loses one. -/
theorem entriesOf (name : String) : r'.entriesOf name = r.entriesOf name := by
  unfold TypeRegistry.entriesOf
  cases hget : r.get? name with
  | none =>
    cases hget' : r'.get? name with
    | none => rfl
    | some t' => simp [(h.new name t' hget hget').1]
  | some t =>
    obtain ⟨t', hget', hmacros, -, -⟩ := h.kept name t hget
    simp [hget', hmacros]

/-- No descriptor gets an entry or loses one. -/
theorem recordsOf (name : String) : r'.recordsOf name = r.recordsOf name := by
  unfold TypeRegistry.recordsOf
  cases hget : r.get? name with
  | none =>
    cases hget' : r'.get? name with
    | none => rfl
    | some t' => simp [(h.new name t' hget hget').2.1]
  | some t =>
    obtain ⟨t', hget', -, hrecords, -⟩ := h.kept name t hget
    simp [hget', hrecords]

/-- The types above a type are those of before, or they are the class of a unit and the types
    above it. -/
theorem above_cases {t' : OwnerType} (ht' : r'.Above name t') :
    t'.macros = {} ∨
      ∃ t, (r.Above name t ∨ r.Above extensionType t) ∧ t'.macros = t.macros := by
  induction ht' with
  | @here name t' hget' =>
    cases hget : r.get? name with
    | none => exact .inl (h.new name t' hget hget').1
    | some t =>
      obtain ⟨u, hu, hmacros, -, -⟩ := h.kept name t hget
      rw [hget'] at hu
      cases hu
      exact .inr ⟨t, .inl (.here hget), hmacros⟩
  | @up name parent t' u hget' hparent hu ih =>
    rcases ih with hempty | ⟨v, habove, hmacros⟩
    · exact .inl hempty
    · refine .inr ⟨v, ?_, hmacros⟩
      cases hget : r.get? name with
      | none =>
        -- the class of a unit, which is an extension
        have hextension := (h.new name t' hget hget').2.2
        rw [hparent] at hextension
        cases hextension
        exact .inr (habove.elim id id)
      | some t =>
        obtain ⟨w, hw, -, -, hparent'⟩ := h.kept name t hget
        rw [hget'] at hw
        cases hw
        exact habove.imp_left (.up hget (hparent' ▸ hparent))

/-- What no extension shows is as hidden as before. -/
theorem hides (hname : r.Hides x name) (hextension : r.Hides x extensionType) :
    r'.Hides x name := by
  intro t' ht'
  rcases h.above_cases ht' with hempty | ⟨t, habove, hmacros⟩
  · rw [hempty]
    rfl
  · rw [hmacros]
    exact habove.elim (hname t) (hextension t)

end Extends

end TypeRegistry

end Quasiquote
