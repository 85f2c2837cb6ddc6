import Quasiquote.Proofs.Types.Hierarchy
import Quasiquote.Typing.Build

namespace Quasiquote

/-!
# Entries — what a macro leaves in a table

A macro stands in the table of its owner under its full signature, and under the signature without
its block if that is optional.  Where a table has no other entries of the name, these alone decide
what a call means, and registering the macro once more changes nothing but its unit.

* `Signature.required_withoutBlock`, `Signature.positional_withoutBlock` — the arguments of a macro
  without its block;
* `MacroSpec.forms`, `MacroSpec.form?`, `MacroSpec.entries` — the signatures of a macro, the one
  that a call means, and the entries of the macro;
* `MacroTable.named_add`, `OwnerType.named_withMacro` — the entries of a name in changed tables;
* `TypeRegistry.Sees`, `TypeRegistry.Confines` — whether a search from one type comes across
  another, and whether only one type has entries of a name;
* `TypeRegistry.Confines.lookupMacro_of_sees` — what a search finds then.
-/

namespace Signature

variable {s : Signature}

theorem params_of_hasBlock (h : s.hasBlock = true) : s.params.dropLast ++ [.block] = s.params := by
  rw [hasBlock, beq_iff_eq] at h
  obtain ⟨params, hparams⟩ := List.getLast?_eq_some_iff.1 h
  rw [hparams, List.dropLast_concat]

/-- A macro needs the same arguments without its block. -/
theorem required_withoutBlock (s : Signature) : s.withoutBlock.required = s.required := by
  unfold withoutBlock
  split
  · rename_i h
    rw [required, required, ← params_of_hasBlock h]
    simp
  · rfl

/-- A macro takes no more arguments without its block. -/
theorem positional_withoutBlock (s : Signature) : s.withoutBlock.positional = s.positional := by
  unfold withoutBlock
  split
  · rename_i h
    rw [positional, positional, ← params_of_hasBlock h]
    simp
  · rfl

/-- Without its only block, a signature has no block. -/
theorem hasBlock_withoutBlock (h : s.hasBlock = true) (hlast : ∀ k ∈ s.params.dropLast, k ≠ .block) :
    s.withoutBlock.hasBlock = false := by
  rw [withoutBlock, if_pos h, hasBlock, beq_eq_false_iff_ne]
  intro hblock
  exact hlast .block (List.mem_of_getLast? hblock) rfl

end Signature

namespace MacroSpec

variable (m : MacroSpec) (u : LoadedUnit) (argc : Nat) (block : Bool)

/-- The signatures under which a macro can be called. -/
def forms : List (Signature × EntryKind) :=
  (m.signature, .full) ::
    if m.hasOptionalBlock then [(m.signature.withoutBlock, .blockless)] else []

/-- The form of a macro that a call means. -/
def form? : Option (Signature × EntryKind) := m.forms.find? (·.1.accepts argc block)

/-- The entry of a form of a macro that is expanded by a unit. -/
def entry (form : Signature × EntryKind) : MacroEntry := ⟨m.name, form.1, form.2, u⟩

/-- The entries of a macro that is expanded by a unit. -/
def entries : List MacroEntry := m.forms.map (m.entry u)

theorem entries_ne_nil : m.entries u ≠ [] := List.cons_ne_nil _ _

/-- Which entry a call means does not depend on the unit. -/
theorem find?_entries :
    (m.entries u).find? (·.fits m.name argc block) = (m.form? argc block).map (m.entry u) := by
  rw [entries, List.find?_map, form?]
  refine congrArg (fun p => (m.forms.find? p).map (m.entry u)) (funext fun form => ?_)
  simp [entry, MacroEntry.fits]

variable {m}

/-- A macro whose block may be left out has a block. -/
theorem hasBlock_of_hasOptionalBlock (h : m.hasOptionalBlock = true) :
    m.signature.hasBlock = true := by
  unfold hasOptionalBlock at h
  rw [Signature.hasBlock, signature, List.getLast?_map]
  split at h
  · rename_i hargs
    rw [hargs]
    rfl
  · cases h

/-- The signature without an optional block is another one. -/
theorem withoutBlock_ne (h : m.hasOptionalBlock = true) :
    m.signature.withoutBlock ≠ m.signature := by
  have hblock := hasBlock_of_hasOptionalBlock h
  intro hsame
  rw [Signature.withoutBlock, if_pos hblock] at hsame
  have hlength := congrArg (fun s : Signature => s.params.length) hsame
  have hne : m.signature.params ≠ [] := by
    intro hnil
    rw [Signature.hasBlock, hnil] at hblock
    cases hblock
  have := List.length_pos_iff.2 hne
  simp only [List.length_dropLast] at hlength
  omega

end MacroSpec

/-! ### Tables -/

namespace MacroTable

variable {x : String} {e : MacroEntry}

/-- An addition changes the entries of its own name only, as if there were no others. -/
theorem filter_addTo (e : MacroEntry) (x : String) (es : List MacroEntry) :
    (addTo e es).1.filter (·.name == x) =
      if e.name = x then (addTo e (es.filter (·.name == x))).1 else es.filter (·.name == x) := by
  induction es with
  | nil => by_cases hx : e.name = x <;> simp [addTo, hx]
  | cons y es ih =>
    rw [addTo]
    by_cases hkey : y.hasKey e.name e.signature = true
    · have hname : y.name = e.name := by
        simp only [MacroEntry.hasKey, Bool.and_eq_true, beq_iff_eq] at hkey
        exact hkey.1
      rw [if_pos hkey, List.filter_cons, List.filter_cons, hname]
      by_cases hx : e.name = x
      · simp only [hx, beq_self_eq_true, if_true]
        rw [addTo, if_pos hkey]
      · simp [hx]
    · rw [if_neg hkey, List.filter_cons, List.filter_cons, ih]
      by_cases hx : e.name = x
      · by_cases hy : (y.name == x) = true
        · rw [if_pos hx, if_pos hx, if_pos hy, if_pos hy, addTo, if_neg hkey]
        · rw [if_pos hx, if_pos hx, if_neg hy, if_neg hy]
      · rw [if_neg hx, if_neg hx]

theorem named_add (t : MacroTable) (e : MacroEntry) (x : String) :
    (t.add e).1.named x = if e.name = x then (addTo e (t.named x)).1 else t.named x :=
  filter_addTo e x t.entries

/-- What a call means depends on the entries of its name. -/
theorem resolve_eq_find? (t : MacroTable) (x : String) (argc : Nat) (block : Bool) :
    t.resolve x argc block = (t.named x).find? (·.fits x argc block) := by
  rw [resolve, named, List.find?_filter]
  refine congrArg (List.find? · t.entries) (funext fun e => ?_)
  cases h : e.name == x <;> simp [MacroEntry.fits, h]

end MacroTable

namespace OwnerType

variable {m : MacroSpec} {unit : String} {loaded : LoadedUnit} {t : OwnerType}

/-- Registering a macro adds its entries. -/
theorem macros_withMacro (m : MacroSpec) (unit : String) (loaded : LoadedUnit) (t : OwnerType) :
    (Typer.withMacro m unit loaded t).macros =
      (m.entries loaded).foldl (fun table e => (table.add e).1) t.macros := by
  unfold Typer.withMacro Typer.recordsOf MacroSpec.entries MacroSpec.forms
  cases m.hasOptionalBlock <;> rfl

/-- Registering a macro leaves the entries of other names alone. -/
theorem named_withMacro_of_ne {x : String} (h : m.name ≠ x) :
    (Typer.withMacro m unit loaded t).macros.named x = t.macros.named x := by
  rw [macros_withMacro, MacroSpec.entries, MacroSpec.forms]
  cases m.hasOptionalBlock <;> simp [MacroTable.named_add, MacroSpec.entry, h]

/-- Where there are no other entries of the name, a macro that is registered, for the first time or
    once more, has its own entries only. -/
theorem named_withMacro (h : t.macros.named m.name = [] ∨ ∃ u, t.macros.named m.name = m.entries u) :
    (Typer.withMacro m unit loaded t).macros.named m.name = m.entries loaded := by
  have hkey (s s' : Signature) (kind : EntryKind) (u : LoadedUnit) :
      (⟨m.name, s, kind, u⟩ : MacroEntry).hasKey m.name s' = true ↔ s = s' := by
    simp [MacroEntry.hasKey]
  rw [macros_withMacro]
  unfold MacroSpec.entries MacroSpec.forms at h ⊢
  cases hoptional : m.hasOptionalBlock with
  | false =>
    simp only [hoptional, Bool.false_eq_true, if_false] at h
    rcases h with h | ⟨u, h⟩ <;>
      simp [MacroTable.named_add, MacroSpec.entry, h, MacroTable.addTo, hkey]
  | true =>
    have hne := (MacroSpec.withoutBlock_ne hoptional).symm
    simp only [hoptional, if_true] at h
    rcases h with h | ⟨u, h⟩ <;>
      simp [MacroTable.named_add, MacroSpec.entry, h, MacroTable.addTo, hkey, hne]

end OwnerType

/-! ### Searches -/

namespace TypeRegistry

variable {r : TypeRegistry} {o x : String}

theorem entriesOf_of_get? {t : OwnerType} (h : r.get? o = some t) :
    r.entriesOf o = t.macros.entries := by
  simp [entriesOf, h]

theorem entriesOf_install_of_ne (r : TypeRegistry) {t : OwnerType} (h : o ≠ t.name) :
    (r.install t).entriesOf o = r.entriesOf o := by
  rw [entriesOf, get?_install_of_ne r h, entriesOf]

theorem entriesOf_modify_of_ne (r : TypeRegistry) (f : OwnerType → OwnerType) {owner : String}
    (h : o ≠ owner) : (r.modify owner f).entriesOf o = r.entriesOf o := by
  rw [entriesOf, get?_modify_of_ne r f h, entriesOf]

@[simp] theorem entriesOf_define (r : TypeRegistry) (owner : String) (m : Method) (o : String) :
    (r.modify owner (·.define m)).entriesOf o = r.entriesOf o :=
  (Extends.define r owner m).entriesOf o

/-- Opening a type changes no table. -/
@[simp] theorem entriesOf_openType (r : TypeRegistry) (name : String) (superclass : Option String)
    (persistent : Bool) (o : String) :
    (r.openType name superclass persistent).entriesOf o = r.entriesOf o := by
  have hget := get?_openType r name superclass persistent o
  by_cases hnew : o = name ∧ r.get? name = none
  · rw [if_pos hnew] at hget
    rw [entriesOf_of_get? hget, entriesOf, hnew.1, hnew.2]
    rfl
  · rw [if_neg hnew] at hget
    rw [entriesOf, hget, entriesOf]

/-- The entries of a name in the table of a type. -/
def named (r : TypeRegistry) (o x : String) : List MacroEntry :=
  (r.entriesOf o).filter (·.name == x)

theorem named_of_get? {t : OwnerType} (h : r.get? o = some t) : r.named o x = t.macros.named x := by
  rw [named, entriesOf_of_get? h, MacroTable.named]

theorem named_of_unknown (h : r.get? o = none) : r.named o x = [] := by
  simp [named, entriesOf, h]

theorem named_install_self (r : TypeRegistry) (t : OwnerType) (x : String) :
    (r.install t).named t.name x = t.macros.named x :=
  named_of_get? (get?_install_self r t)

theorem named_install_of_ne (r : TypeRegistry) {t : OwnerType} (h : o ≠ t.name) (x : String) :
    (r.install t).named o x = r.named o x := by
  rw [named, entriesOf_install_of_ne r h, named]

theorem named_modify_self {f : OwnerType → OwnerType} {t : OwnerType} (h : r.get? o = some t)
    (x : String) : (r.modify o f).named o x = (f t).macros.named x :=
  named_of_get? (get?_modify_self h f)

theorem named_modify_of_ne (r : TypeRegistry) (f : OwnerType → OwnerType) {owner : String}
    (h : o ≠ owner) (x : String) : (r.modify owner f).named o x = r.named o x := by
  rw [named, entriesOf_modify_of_ne r f h, named]

@[simp] theorem named_define (r : TypeRegistry) (owner : String) (m : Method) (o x : String) :
    (r.modify owner (·.define m)).named o x = r.named o x := by
  rw [named, entriesOf_define, named]

@[simp] theorem named_openType (r : TypeRegistry) (name : String) (superclass : Option String)
    (persistent : Bool) (o x : String) :
    (r.openType name superclass persistent).named o x = r.named o x := by
  rw [named, entriesOf_openType, named]

/-- A search from one type comes across another. -/
def Sees (r : TypeRegistry) (p o : String) : Prop := ∃ t ∈ r.ancestors p, r.get? o = some t

/-- A search looks at the type itself first. -/
theorem sees_self (h : r.named o x ≠ []) : r.Sees o o := by
  obtain ⟨t, h⟩ := Option.ne_none_iff_exists'.1 fun hnone => h (named_of_unknown hnone)
  refine ⟨t, ?_, h⟩
  unfold ancestors
  rw [h]
  cases r.types.size <;> exact List.mem_cons_self

/-- Whether no type but one has entries of a name. -/
def Confines (r : TypeRegistry) (o x : String) : Prop := ∀ p, p ≠ o → r.named p x = []

namespace Confines

variable (h : r.Confines o x) {p : String} (argc : Nat) (block : Bool)
include h

/-- What a type that a search looks at has to answer. -/
theorem resolve_cases {t : OwnerType} (ht : t ∈ r.ancestors p) :
    t.macros.resolve x argc block = none ∨ r.get? o = some t ∧
      t.macros.resolve x argc block = (r.named o x).find? (·.fits x argc block) := by
  obtain ⟨name, hget⟩ := (above_of_mem_chain ht).exists_get?
  rw [MacroTable.resolve_eq_find?, ← named_of_get? hget]
  by_cases hname : name = o
  · exact .inr ⟨hname ▸ hget, by rw [hname]⟩
  · exact .inl (by rw [h name hname]; rfl)

/-- A search that does not come across the type finds nothing. -/
theorem lookupMacro_of_not_sees (hp : ¬ r.Sees p o) : r.lookupMacro p x argc block = none := by
  rw [TypeRegistry.lookupMacro, List.findSome?_eq_none_iff]
  intro t ht
  exact (h.resolve_cases argc block ht).resolve_right fun hsome => hp ⟨t, ht, hsome.1⟩

/-- A search that comes across the type finds the entry that the call means. -/
theorem lookupMacro_of_sees (hp : r.Sees p o) :
    r.lookupMacro p x argc block = (r.named o x).find? (·.fits x argc block) := by
  obtain ⟨t, ht, hget⟩ := hp
  cases hfound : r.lookupMacro p x argc block with
  | none =>
    have hresolve := List.findSome?_eq_none_iff.1 hfound t ht
    rw [MacroTable.resolve_eq_find?, ← named_of_get? hget] at hresolve
    exact hresolve.symm
  | some e =>
    obtain ⟨u, hu, he⟩ := List.exists_of_findSome?_eq_some hfound
    rcases h.resolve_cases argc block hu with hnone | ⟨-, hsome⟩
    · rw [hnone] at he
      cases he
    · exact he.symm.trans hsome

theorem lookupMacro_cases (p : String) : r.lookupMacro p x argc block = none ∨
    r.lookupMacro p x argc block = (r.named o x).find? (·.fits x argc block) :=
  (Classical.em (r.Sees p o)).symm.imp (h.lookupMacro_of_not_sees argc block)
    (h.lookupMacro_of_sees argc block)

/-- Searches from several types, of which the first that finds something counts. -/
theorem findSome?_cases (ps : List String) :
    ps.findSome? (r.lookupMacro · x argc block) = none ∨
      ps.findSome? (r.lookupMacro · x argc block) = (r.named o x).find? (·.fits x argc block) := by
  cases hfound : ps.findSome? (r.lookupMacro · x argc block) with
  | none => exact .inl rfl
  | some e =>
    obtain ⟨p, -, he⟩ := List.exists_of_findSome?_eq_some hfound
    refine .inr ((h.lookupMacro_cases argc block p).elim (fun hnone => ?_) fun hsome => ?_)
    · rw [hnone] at he
      cases he
    · exact he.symm.trans hsome

theorem findSome?_of_sees {ps : List String} (hmem : p ∈ ps) (hp : r.Sees p o) :
    ps.findSome? (r.lookupMacro · x argc block) = (r.named o x).find? (·.fits x argc block) := by
  rcases h.findSome?_cases argc block ps with hnone | hsome
  · have hlookup := List.findSome?_eq_none_iff.1 hnone p hmem
    rw [hnone, ← h.lookupMacro_of_sees argc block hp, hlookup]
  · exact hsome

end Confines

end TypeRegistry

end Quasiquote
