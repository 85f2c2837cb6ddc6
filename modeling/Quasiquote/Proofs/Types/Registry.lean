import Quasiquote.Types.Registry
import Quasiquote.Proofs.NameMap

namespace Quasiquote

/-!
# The type registry — the units that types name

A type names the units of its macros twice: its table has them loaded, and its
descriptor records their names.

* `TypeRegistry.units`, `TypeRegistry.recorded` — all units in the tables, and all names
  in the descriptors;
* `TypeRegistry.mem_units_modify`, `TypeRegistry.mem_units_openType`,
  `TypeRegistry.mem_units_install` — where the units of a changed registry come from, and
  likewise for the records.
-/

namespace OwnerType

/-- The units in the table of a type. -/
def units (t : OwnerType) : List LoadedUnit := t.macros.entries.map MacroEntry.unit

/-- The names of units in the descriptor of a type. -/
def recorded (t : OwnerType) : List String :=
  (t.descriptor.toList.flatMap Descriptor.macros).map MacroRecord.unit

@[simp] theorem units_define (t : OwnerType) (m : Method) : (t.define m).units = t.units := rfl

@[simp] theorem recorded_define (t : OwnerType) (m : Method) :
    (t.define m).recorded = t.recorded := by
  unfold recorded define
  cases t.descriptor <;> rfl

@[simp] theorem units_ofProgram (name : String) (superclass : Option String)
    (persistent : Bool) : (ofProgram name superclass persistent).units = [] := rfl

@[simp] theorem recorded_ofProgram (name : String) (superclass : Option String)
    (persistent : Bool) : (ofProgram name superclass persistent).recorded = [] := by
  cases persistent <;> rfl

/-! ### Additions -/

/-- Every other entry of a table was there before the addition. -/
theorem mem_addTo {e x : MacroEntry} {xs : List MacroEntry}
    (h : x ∈ (MacroTable.addTo e xs).1) : x = e ∨ x ∈ xs := by
  induction xs with
  | nil => simpa [MacroTable.addTo] using h
  | cons y ys ih =>
    simp only [MacroTable.addTo] at h
    split at h
    · exact (List.mem_cons.1 h).imp_right (List.mem_cons_of_mem _)
    · rcases List.mem_cons.1 h with h | h
      · exact .inr (List.mem_cons.2 (.inl h))
      · exact (ih h).imp_right (List.mem_cons_of_mem _)

/-- Every other record was there before the change. -/
theorem mem_addMacroTo {r : MacroRecord} {unit : String} {xs : List MacroRecord}
    (h : unit ∈ (Descriptor.addMacroTo r xs).1.map MacroRecord.unit) :
    unit = r.unit ∨ unit ∈ xs.map MacroRecord.unit := by
  induction xs with
  | nil => simpa [Descriptor.addMacroTo] using h
  | cons y ys ih =>
    simp only [Descriptor.addMacroTo] at h
    split at h
    · exact (List.mem_cons.1 h).imp_right (List.mem_cons_of_mem _)
    · rcases List.mem_cons.1 h with h | h
      · exact .inr (List.mem_cons.2 (.inl h))
      · exact (ih h).imp_right (List.mem_cons_of_mem _)

theorem mem_units_addEntry {t : OwnerType} {e : MacroEntry} {u : LoadedUnit}
    (h : u ∈ (t.addEntry e).1.units) : u = e.unit ∨ u ∈ t.units := by
  obtain ⟨x, hx, rfl⟩ := List.mem_map.1 h
  rcases mem_addTo hx with rfl | hx
  · exact .inl rfl
  · exact .inr (List.mem_map.2 ⟨x, hx, rfl⟩)

/-- The unit of an added entry is in the table. -/
theorem mem_units_addEntry_self (t : OwnerType) (e : MacroEntry) :
    e.unit ∈ (t.addEntry e).1.units :=
  List.mem_map.2 ⟨e, MacroTable.mem_addTo e _, rfl⟩

@[simp] theorem recorded_addEntry (t : OwnerType) (e : MacroEntry) :
    (t.addEntry e).1.recorded = t.recorded := rfl

@[simp] theorem units_recordMacro (t : OwnerType) (r : MacroRecord) :
    (t.recordMacro r).units = t.units := rfl

theorem mem_recorded_recordMacro {t : OwnerType} {r : MacroRecord} {unit : String}
    (h : unit ∈ (t.recordMacro r).recorded) : unit = r.unit ∨ unit ∈ t.recorded := by
  unfold recorded recordMacro at h
  unfold recorded
  cases hd : t.descriptor with
  | none => simp [hd] at h
  | some d =>
    have hmem : unit ∈ (Descriptor.addMacroTo r d.macros).1.map MacroRecord.unit := by
      simpa [hd, Descriptor.addMacro] using h
    simpa using mem_addMacroTo hmem

/-- A record is in the descriptor, if there is one. -/
theorem mem_recorded_recordMacro_self (t : OwnerType) (r : MacroRecord)
    (h : t.descriptor.isSome = true) : r.unit ∈ (t.recordMacro r).recorded := by
  obtain ⟨d, hd⟩ := Option.isSome_iff_exists.1 h
  have := Descriptor.mem_addMacroTo r d.macros
  simp only [recorded, recordMacro, hd, Option.map_some, Option.toList_some,
    List.flatMap_cons, List.flatMap_nil, List.append_nil]
  exact List.mem_map.2 ⟨r, this, rfl⟩

/-- Records are in a descriptor. -/
theorem isSome_of_mem_recorded {t : OwnerType} {unit : String} (h : unit ∈ t.recorded) :
    t.descriptor.isSome = true := by
  unfold recorded at h
  cases hd : t.descriptor with
  | none => simp [hd] at h
  | some d => rfl

end OwnerType

namespace TypeRegistry

variable {r : TypeRegistry} {name : String}

/-- One type changes, if there is one of the name. -/
theorem get?_modify (r : TypeRegistry) (owner : String) (f : OwnerType → OwnerType) (name : String) :
    (r.modify owner f).get? name = if name = owner then (r.get? owner).map f else r.get? name :=
  NameMap.get?_modify f r.types owner name

theorem get?_modify_self {t : OwnerType} (h : r.get? name = some t) (f : OwnerType → OwnerType) :
    (r.modify name f).get? name = some (f t) := by
  rw [get?_modify, if_pos rfl, h, Option.map_some]

theorem get?_modify_of_ne (r : TypeRegistry) {owner : String} (f : OwnerType → OwnerType)
    (h : name ≠ owner) : (r.modify owner f).get? name = r.get? name := by
  rw [get?_modify, if_neg h]

/-- The units in the tables of all types. -/
def units (r : TypeRegistry) : List LoadedUnit := r.types.values.flatMap OwnerType.units

/-- The names of units in the descriptors of all types. -/
def recorded (r : TypeRegistry) : List String := r.types.values.flatMap OwnerType.recorded

theorem mem_units_of_get? {t : OwnerType} {u : LoadedUnit} (h : r.get? name = some t)
    (hu : u ∈ t.units) : u ∈ r.units :=
  List.mem_flatMap.2 ⟨t, NameMap.mem_values_of_get? h, hu⟩

theorem mem_recorded_of_get? {t : OwnerType} {unit : String} (h : r.get? name = some t)
    (hu : unit ∈ t.recorded) : unit ∈ r.recorded :=
  List.mem_flatMap.2 ⟨t, NameMap.mem_values_of_get? h, hu⟩

/-- What a change of one type brings about, it does to that type. -/
theorem mem_flatMap_modify {β : Type} {g : OwnerType → List β} {f : OwnerType → OwnerType}
    {b : β} (h : b ∈ (r.modify name f).types.values.flatMap g) :
    b ∈ r.types.values.flatMap g ∨ ∃ t, r.get? name = some t ∧ b ∈ g (f t) := by
  obtain ⟨t, ht, hb⟩ := List.mem_flatMap.1 h
  rcases NameMap.mem_values_modify ht with hold | ⟨t', ht', rfl⟩
  · exact .inl (List.mem_flatMap.2 ⟨t, hold, hb⟩)
  · exact .inr ⟨t', ht', hb⟩

/-- What a new type brings in, it has itself. -/
theorem mem_flatMap_insert {β : Type} {g : OwnerType → List β} {t : OwnerType} {b : β}
    (h : b ∈ (r.types.insert name t).values.flatMap g) :
    b ∈ g t ∨ b ∈ r.types.values.flatMap g := by
  obtain ⟨t', ht, hb⟩ := List.mem_flatMap.1 h
  rcases NameMap.mem_values_insert ht with rfl | ht
  · exact .inl hb
  · exact .inr (List.mem_flatMap.2 ⟨t', ht, hb⟩)

theorem mem_units_modify {f : OwnerType → OwnerType} {u : LoadedUnit}
    (h : u ∈ (r.modify name f).units) :
    u ∈ r.units ∨ ∃ t, r.get? name = some t ∧ u ∈ (f t).units :=
  mem_flatMap_modify h

theorem mem_recorded_modify {f : OwnerType → OwnerType} {unit : String}
    (h : unit ∈ (r.modify name f).recorded) :
    unit ∈ r.recorded ∨ ∃ t, r.get? name = some t ∧ unit ∈ (f t).recorded :=
  mem_flatMap_modify h

/-- Declaring a method names no unit. -/
theorem mem_units_define {m : Method} {u : LoadedUnit}
    (h : u ∈ (r.modify name (·.define m)).units) : u ∈ r.units :=
  (mem_units_modify h).elim id fun ⟨_, ht, hu⟩ => mem_units_of_get? ht hu

theorem mem_recorded_define {m : Method} {unit : String}
    (h : unit ∈ (r.modify name (·.define m)).recorded) : unit ∈ r.recorded :=
  (mem_recorded_modify h).elim id fun ⟨_, ht, hu⟩ =>
    mem_recorded_of_get? ht (by rwa [OwnerType.recorded_define] at hu)

/-- Opening a type names no unit. -/
theorem mem_units_openType {superclass : Option String} {persistent : Bool} {u : LoadedUnit}
    (h : u ∈ (r.openType name superclass persistent).units) : u ∈ r.units := by
  unfold openType at h
  split at h
  · exact h
  · exact (mem_flatMap_insert h).elim (by simp) id

theorem mem_recorded_openType {superclass : Option String} {persistent : Bool} {unit : String}
    (h : unit ∈ (r.openType name superclass persistent).recorded) : unit ∈ r.recorded := by
  unfold openType at h
  split at h
  · exact h
  · exact (mem_flatMap_insert h).elim (by simp) id

/-- An installed type brings its own units in. -/
theorem mem_units_install {t : OwnerType} {u : LoadedUnit} (h : u ∈ (r.install t).units) :
    u ∈ t.units ∨ u ∈ r.units :=
  mem_flatMap_insert h

theorem mem_recorded_install {t : OwnerType} {unit : String}
    (h : unit ∈ (r.install t).recorded) : unit ∈ t.recorded ∨ unit ∈ r.recorded :=
  mem_flatMap_insert h

/-- A registry starts with the built-in types and the type of scripts, under their names. -/
theorem mem_entries_initial {scriptType name : String} {t : OwnerType}
    (h : (name, t) ∈ (initial scriptType).types.entries) :
    t.name = name ∧ (t ∈ builtins ∨ t = .ofProgram scriptType none true) := by
  have hinstall (ts : List OwnerType) (r : TypeRegistry)
      (h : (name, t) ∈ (ts.foldl install r).types.entries) :
      (t.name = name ∧ t ∈ ts) ∨ (name, t) ∈ r.types.entries := by
    induction ts generalizing r with
    | nil => exact .inr h
    | cons u ts ih =>
      rcases ih _ h with ⟨hname, ht⟩ | h
      · exact .inl ⟨hname, List.mem_cons_of_mem _ ht⟩
      · refine (NameMap.mem_entries_insert h).imp_left fun heq => ?_
        cases heq
        exact ⟨rfl, List.mem_cons_self⟩
  rcases hinstall _ _ h with ⟨hname, ht⟩ | hnone
  · exact ⟨hname, (List.mem_append.1 ht).imp_right List.mem_singleton.1⟩
  · cases hnone

/-- What no type at the start brings in, the registry does not have. -/
theorem flatMap_initial {β : Type} {g : OwnerType → List β} (hbuiltins : ∀ t ∈ builtins, g t = [])
    {scriptType : String} (hscript : g (.ofProgram scriptType none true) = []) :
    (initial scriptType).types.values.flatMap g = [] := by
  refine List.flatMap_eq_nil_iff.2 fun t ht => ?_
  obtain ⟨⟨name, u⟩, hu, rfl⟩ := List.mem_map.1 ht
  rcases (mem_entries_initial hu).2 with hu | rfl
  · exact hbuiltins u hu
  · exact hscript

/-- A session starts with types that name no units. -/
theorem units_initial (scriptType : String) : (initial scriptType).units = [] := by
  have hbuiltins : builtins.all (·.units.isEmpty) = true := by decide
  exact flatMap_initial (by simpa using List.all_eq_true.1 hbuiltins)
    (OwnerType.units_ofProgram _ _ _)

theorem recorded_initial (scriptType : String) : (initial scriptType).recorded = [] := by
  have hbuiltins : builtins.all (·.recorded.isEmpty) = true := by decide
  exact flatMap_initial (by simpa using List.all_eq_true.1 hbuiltins)
    (OwnerType.recorded_ofProgram _ _ _)

/-- The descriptor of a type is one of those that are written out. -/
theorem mem_descriptors {t : OwnerType} {d : Descriptor} (h : r.get? name = some t)
    (hd : t.descriptor = some d) : d ∈ r.descriptors :=
  List.mem_filterMap.2 ⟨t, NameMap.mem_values_of_get? h, hd⟩

/-- The records of all descriptors name the recorded units. -/
theorem mem_recorded_of_mem {d : Descriptor} {m : MacroRecord} (hd : d ∈ r.descriptors)
    (hm : m ∈ d.macros) : m.unit ∈ r.recorded := by
  obtain ⟨t, ht, hd⟩ := List.mem_filterMap.1 hd
  refine List.mem_flatMap.2 ⟨t, ht, List.mem_map.2 ⟨m, ?_, rfl⟩⟩
  rw [hd]
  simpa using hm

/-- A session starts with an empty type of scripts. -/
theorem get?_initial (scriptType : String) :
    (initial scriptType).get? scriptType = some (.ofProgram scriptType none true) := by
  rw [initial, List.foldl_append]
  exact get?_install_self _ (.ofProgram scriptType none true)

end TypeRegistry

end Quasiquote
