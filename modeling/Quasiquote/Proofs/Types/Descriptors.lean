import Quasiquote.Proofs.Types.Lockstep
import Quasiquote.Proofs.Types.Registry

namespace Quasiquote

/-!
# Descriptors of types — what changes leave in them

A change of a type adds records to its descriptor, or points one at another unit; no record goes.
As types are kept under the names of their descriptors, no two of these have one name.

* `Descriptor.keys` — the names and signatures that a descriptor lists;
* `OwnerType.Extends` — a type whose descriptor lists no less than that of another one;
* `TypeRegistry.Named`, `TypeRegistry.Named.eq_of_name` — types under the names of their
  descriptors;
* `TypeRegistry.Lists` — a registry in which the descriptor of a name lists given macros.
-/

namespace Descriptor

/-- The names and signatures of the macros that a descriptor lists. -/
def keys (d : Descriptor) : List (String × Signature) := d.macros.map MacroRecord.key

/-- Recording a macro removes no record. -/
theorem keys_addMacro (d : Descriptor) (r : MacroRecord) : d.keys ⊆ (d.addMacro r).1.keys := by
  show d.keys ⊆ (addMacroTo r d.macros).1.map MacroRecord.key
  -- a record of the same name and signature only gets another unit
  by_cases hmem : r.key ∈ d.macros.map MacroRecord.key
  · rw [keys_addMacroTo_of_mem hmem]
    exact List.Subset.refl _
  · rw [addMacroTo_of_not_mem hmem, List.map_append]
    exact List.subset_append_left _ _

end Descriptor

namespace OwnerType

/-- Whether the descriptor of `t'`, if there is one, is that of `t` with more macros perhaps. -/
def Extends (t t' : OwnerType) : Prop :=
  ∀ d', t'.descriptor = some d' → ∃ d, t.descriptor = some d ∧ d.name = d'.name ∧ d.keys ⊆ d'.keys

namespace Extends

variable {t t' t'' : OwnerType}

theorem of_eq (h : t'.descriptor = t.descriptor) : t.Extends t' :=
  fun d hd => ⟨d, h ▸ hd, rfl, List.Subset.refl _⟩

theorem trans (h : t.Extends t') (h' : t'.Extends t'') : t.Extends t'' := by
  intro d'' hd''
  obtain ⟨d', hd', hname', hkeys'⟩ := h' d'' hd''
  obtain ⟨d, hd, hname, hkeys⟩ := h d' hd'
  exact ⟨d, hd, hname.trans hname', List.Subset.trans hkeys hkeys'⟩

theorem define (t : OwnerType) (m : Method) : t.Extends (t.define m) := by
  intro d' hd'
  obtain ⟨d, hd, rfl⟩ := Option.map_eq_some_iff.1 hd'
  exact ⟨d, hd, rfl, List.Subset.refl _⟩

theorem recordMacro (t : OwnerType) (r : MacroRecord) : t.Extends (t.recordMacro r) := by
  intro d' hd'
  obtain ⟨d, hd, rfl⟩ := Option.map_eq_some_iff.1 hd'
  exact ⟨d, hd, rfl, d.keys_addMacro r⟩

/-- Registering a macro removes no record. -/
theorem withMacro (spec : MacroSpec) (unit : String) (loaded : LoadedUnit) (t : OwnerType) :
    t.Extends (Typer.withMacro spec unit loaded t) := by
  -- the entry of the macro is no part of the descriptor, the records are added one by one
  have hfold (rs : List MacroRecord) (t : OwnerType) :
      t.Extends (rs.foldl OwnerType.recordMacro t) := by
    induction rs generalizing t with
    | nil => exact .of_eq rfl
    | cons r rs ih => exact (recordMacro t r).trans (ih _)
  unfold Typer.withMacro
  refine trans (of_eq ?_) (hfold _ _)
  split <;> rfl

end Extends

end OwnerType

namespace TypeRegistry

variable {r : TypeRegistry}

/-- Where the descriptors of a changed registry come from. -/
theorem mem_descriptors_modify {owner : String} {f : OwnerType → OwnerType} {d : Descriptor}
    (h : d ∈ (r.modify owner f).descriptors) :
    d ∈ r.descriptors ∨ ∃ t, r.get? owner = some t ∧ (f t).descriptor = some d := by
  obtain ⟨t', ht', hd⟩ := List.mem_filterMap.1 h
  rcases NameMap.mem_values_modify ht' with hold | ⟨t, ht, rfl⟩
  · exact .inl (List.mem_filterMap.2 ⟨t', hold, hd⟩)
  · exact .inr ⟨t, ht, hd⟩

theorem mem_descriptors_insert {name : String} {t : OwnerType} {d : Descriptor}
    (h : d ∈ ({ r with types := r.types.insert name t } : TypeRegistry).descriptors) :
    t.descriptor = some d ∨ d ∈ r.descriptors := by
  obtain ⟨t', ht', hd⟩ := List.mem_filterMap.1 h
  rcases NameMap.mem_values_insert ht' with rfl | hold
  · exact .inl hd
  · exact .inr (List.mem_filterMap.2 ⟨t', hold, hd⟩)

/-- Of the types at the start only that of scripts has a descriptor. -/
theorem name_of_mem_entries_initial {scriptType name : String} {t : OwnerType} {d : Descriptor}
    (h : (name, t) ∈ (initial scriptType).types.entries) (hd : t.descriptor = some d) :
    name = scriptType ∧ d.name = scriptType := by
  obtain ⟨hname, ht | rfl⟩ := mem_entries_initial h
  · have hbuiltins : builtins.all (·.descriptor.isNone) = true := by decide
    have hnone := List.all_eq_true.1 hbuiltins t ht
    rw [hd] at hnone
    cases hnone
  · cases hd
    exact ⟨hname.symm, rfl⟩

/-- A session starts with one descriptor, that of the type of scripts. -/
theorem name_of_mem_initial {scriptType : String} {d : Descriptor}
    (h : d ∈ (initial scriptType).descriptors) : d.name = scriptType := by
  obtain ⟨t, ht, hd⟩ := List.mem_filterMap.1 h
  obtain ⟨⟨name, u⟩, hu, rfl⟩ := List.mem_map.1 ht
  exact (name_of_mem_entries_initial hu hd).2

/-! ### Names -/

/-- Whether types are kept in order, under the names of their descriptors. -/
structure Named (r : TypeRegistry) : Prop where
  sorted : r.types.Sorted
  names : ∀ name t d, (name, t) ∈ r.types.entries → t.descriptor = some d → d.name = name

namespace Named

theorem insert (h : r.Named) {name : String} {t : OwnerType}
    (ht : ∀ d, t.descriptor = some d → d.name = name) :
    Named { r with types := r.types.insert name t } where
  sorted := h.sorted.insert name t
  names other u d hu hd := by
    rcases NameMap.mem_entries_insert hu with heq | hold
    · cases heq
      exact ht d hd
    · exact h.names other u d hold hd

theorem modify (h : r.Named) (owner : String) {f : OwnerType → OwnerType}
    (hf : ∀ t : OwnerType, t.Extends (f t)) : (r.modify owner f).Named := by
  unfold TypeRegistry.modify NameMap.modify
  split
  · rename_i t ht
    refine h.insert fun d' hd' => ?_
    obtain ⟨d, hd, hname, -⟩ := hf t d' hd'
    exact hname.symm.trans (h.names owner t d (NameMap.mem_entries_of_get? ht) hd)
  · exact h

theorem openType (h : r.Named) (name : String) (superclass : Option String) (persistent : Bool) :
    (r.openType name superclass persistent).Named := by
  unfold TypeRegistry.openType
  split
  · exact h
  · refine h.insert fun d hd => ?_
    cases persistent <;> cases hd
    rfl

/-- A session starts with types under their names. -/
theorem initial (scriptType : String) : (TypeRegistry.initial scriptType).Named := by
  have hinstall (ts : List OwnerType) (r : TypeRegistry) (hr : r.types.Sorted) :
      (ts.foldl install r).types.Sorted := by
    induction ts generalizing r with
    | nil => exact hr
    | cons t ts ih => exact ih _ (hr.insert t.name t)
  refine ⟨hinstall _ _ NameMap.sorted_empty, fun name t d ht hd => ?_⟩
  obtain ⟨rfl, hname⟩ := name_of_mem_entries_initial ht hd
  exact hname

/-- The descriptor of a name is that of the type of the name. -/
theorem get?_of_mem (h : r.Named) {d : Descriptor} (hd : d ∈ r.descriptors) :
    ∃ t, r.get? d.name = some t ∧ t.descriptor = some d := by
  obtain ⟨t, ht, htd⟩ := List.mem_filterMap.1 hd
  obtain ⟨⟨name, u⟩, hu, rfl⟩ := List.mem_map.1 ht
  refine ⟨u, ?_, htd⟩
  rw [h.names name u d hu htd]
  exact h.sorted.get?_of_mem hu

/-- No two descriptors have one name. -/
theorem eq_of_name (h : r.Named) {d d' : Descriptor} (hd : d ∈ r.descriptors)
    (hd' : d' ∈ r.descriptors) (hname : d.name = d'.name) : d = d' := by
  obtain ⟨t, ht, htd⟩ := h.get?_of_mem hd
  obtain ⟨t', ht', htd'⟩ := h.get?_of_mem hd'
  rw [hname, ht'] at ht
  cases ht
  exact Option.some.inj (htd.symm.trans htd')

end Named

/-! ### Records of one type -/

/-- Whether the descriptor of a type, if there is one, lists the given macros. -/
def Lists (r : TypeRegistry) (type : String) (keys : List (String × Signature)) : Prop :=
  ∀ d ∈ r.descriptors, d.name = type → keys ⊆ d.keys

namespace Lists

variable {type : String} {keys : List (String × Signature)}

theorem modify (h : r.Lists type keys) (owner : String) {f : OwnerType → OwnerType}
    (hf : ∀ t : OwnerType, t.Extends (f t)) : (r.modify owner f).Lists type keys := by
  intro d' hd' hname'
  rcases mem_descriptors_modify hd' with hold | ⟨t, ht, htd⟩
  · exact h d' hold hname'
  · obtain ⟨d, hd, hname, hkeys⟩ := hf t d' htd
    exact List.Subset.trans (h d (mem_descriptors ht hd) (hname.trans hname')) hkeys

theorem insert (h : r.Lists type keys) {name : String} {t : OwnerType}
    (ht : ∀ d, t.descriptor = some d → d.name = type → keys ⊆ d.keys) :
    Lists { r with types := r.types.insert name t } type keys := by
  intro d hd hname
  rcases mem_descriptors_insert hd with hnew | hold
  · exact ht d hnew hname
  · exact h d hold hname

/-- A type that is opened starts without macros, if it is not there yet. -/
theorem openType (h : r.Lists type keys) (superclass : Option String) {name : String}
    {persistent : Bool}
    (hnew : persistent = true → name = type → r.contains name = true ∨ keys = []) :
    (r.openType name superclass persistent).Lists type keys := by
  unfold TypeRegistry.openType
  split
  · exact h
  · rename_i hnone
    refine h.insert fun d hd hname => ?_
    cases persistent with
    | false => cases hd
    | true =>
      cases hd
      rw [(hnew rfl hname).resolve_left hnone]
      exact List.nil_subset _

end Lists

end TypeRegistry

end Quasiquote
