import Quasiquote.Proofs.Macro.Table

namespace Quasiquote

/-!
# Marks — entries of macros whose block may be left out

A macro whose block may be left out has two entries, and the one without the block is marked.  A
record has no room for the mark: whoever reads a descriptor marks the entries without a block that
share a unit with an entry which has the block.  This finds the marks as long as both entries stay.
A macro that needs its block takes the place of one entry and leaves the other, which keeps its mark
in the table, and is read without it.

* `MacroEntry.Completes`, `MacroSpec.Parts` — the two entries of a macro, and what parts them;
* `Descriptor.isBlockless_iff` — the entries that are read as marked ones;
* `MacroTable.Marked`, `MacroTable.Marked.register` — what the marks of a table say, which a macro
  that is registered keeps;
* `MacroTable.Marked.read`, `MacroTable.Marked.kind_read` — the marks that are read.
-/

/-- Whether `f` is the entry, with its block, of the macro that `e` stands for without it. -/
def MacroEntry.Completes (f e : MacroEntry) : Prop :=
  f.unit.name = e.unit.name ∧ f.signature.hasBlock = true ∧ f.signature.withoutBlock = e.signature

namespace MacroSpec

variable {m : MacroSpec} {u : LoadedUnit} {e : MacroEntry}

/-- Whether a macro has the name of an entry and can be called as the entry with a block, but not
    as the entry. -/
def Parts (m : MacroSpec) (e : MacroEntry) : Prop :=
  m.name = e.name ∧ e.signature ∉ m.forms.map Prod.fst ∧
    ∃ s ∈ m.forms.map Prod.fst, s.hasBlock = true ∧ s.withoutBlock = e.signature

/-- A macro parts an entry that has its name and its signature without the block, if it has to be
    called with the block. -/
theorem parts_iff (hlast : ∀ k ∈ m.signature.params.dropLast, k ≠ .block) : m.Parts e ↔
    m.name = e.name ∧ m.hasOptionalBlock = false ∧ m.signature.hasBlock = true ∧
      m.signature.withoutBlock = e.signature := by
  rw [Parts, forms]
  cases hoptional : m.hasOptionalBlock with
  | false =>
    constructor
    · rintro ⟨hname, -, s, hs, hblock, hwithout⟩
      obtain rfl : s = m.signature := by simpa using hs
      exact ⟨hname, rfl, hblock, hwithout⟩
    · rintro ⟨hname, -, hblock, hwithout⟩
      refine ⟨hname, fun hform => ?_, m.signature, by simp, hblock, hwithout⟩
      -- the signature without its block has none, so it is another one
      have hsame : e.signature = m.signature := by simpa using hform
      have hnone := Signature.hasBlock_withoutBlock hblock hlast
      rw [hwithout, hsame, hblock] at hnone
      cases hnone
  | true =>
    have hblock := hasBlock_of_hasOptionalBlock hoptional
    have hnone := Signature.hasBlock_withoutBlock hblock hlast
    refine iff_of_false ?_ (fun h => Bool.noConfusion h.2.1)
    rintro ⟨-, hother, s, hs, hhas, hwithout⟩
    have hs : s = m.signature ∨ s = m.signature.withoutBlock := by simpa using hs
    rcases hs with rfl | rfl
    · exact hother (by simp [hwithout])
    · rw [hnone] at hhas
      cases hhas

theorem keys_entries (m : MacroSpec) (u : LoadedUnit) :
    (m.entries u).map MacroEntry.key = m.forms.map fun form => (m.name, form.1) := by
  rw [entries, List.map_map]
  rfl

theorem mem_keys_entries {x : String} {s : Signature} :
    (x, s) ∈ (m.entries u).map MacroEntry.key ↔ m.name = x ∧ s ∈ m.forms.map Prod.fst := by
  rw [keys_entries]
  simp only [List.mem_map, Prod.mk.injEq]
  constructor
  · rintro ⟨form, hform, rfl, rfl⟩
    exact ⟨rfl, form, hform, rfl⟩
  · rintro ⟨rfl, form, hform, rfl⟩
    exact ⟨form, hform, rfl, rfl⟩

/-- The entries of a macro are its full one, and the one without its block if that is optional. -/
theorem mem_entries (h : e ∈ m.entries u) : e = ⟨m.name, m.signature, .full, u⟩ ∨
    m.hasOptionalBlock = true ∧ e = ⟨m.name, m.signature.withoutBlock, .blockless, u⟩ := by
  obtain ⟨form, hform, rfl⟩ := List.mem_map.1 h
  rw [forms, List.mem_cons] at hform
  rcases hform with rfl | hform
  · exact .inl rfl
  · split at hform
    · rename_i hoptional
      rw [List.mem_singleton.1 hform]
      exact .inr ⟨hoptional, rfl⟩
    · cases hform

/-- The two entries of a macro stand under different signatures. -/
theorem nodup_keys_entries (m : MacroSpec) (u : LoadedUnit) :
    ((m.entries u).map MacroEntry.key).Nodup := by
  rw [keys_entries, forms]
  split
  · rename_i hoptional
    simpa using (withoutBlock_ne hoptional).symm
  · simp

end MacroSpec

namespace Descriptor

variable {d : Descriptor} {es : List MacroEntry} {e : MacroEntry}

/-- An entry is read as a marked one if it has no block and another record completes it. -/
theorem isBlockless_iff (hmacros : d.macros = es.map MacroEntry.record) :
    d.isBlockless e.record = true ↔ e.signature.hasBlock = false ∧ ∃ f ∈ es, f.Completes e := by
  rw [isBlockless, hmacros]
  simp only [Bool.and_eq_true, Bool.not_eq_true', List.any_map, List.any_eq_true, Function.comp_apply,
    beq_iff_eq, and_assoc]
  rfl

/-- In a descriptor that can be read, an entry that is completed has no block. -/
theorem hasBlock_of_completes {f : MacroEntry} (hlast : d.BlocksLast)
    (hmacros : d.macros = es.map MacroEntry.record) (hf : f ∈ es) (h : f.Completes e) :
    e.signature.hasBlock = false := by
  obtain ⟨-, hblock, hwithout⟩ := h
  have hmem : f.record ∈ d.macros := hmacros ▸ List.mem_map_of_mem hf
  rw [← hwithout]
  exact Signature.hasBlock_withoutBlock hblock (Signature.blockLast_iff.1 (hlast f.record hmem))

end Descriptor

namespace MacroTable

variable {parted : MacroEntry → Prop} {es : List MacroEntry}

/-- Whether units expand macros of one name, the entries without a block that others complete are
    marked, and the entries that are marked are completed, or have been parted from what completed
    them. -/
structure Marked (parted : MacroEntry → Prop) (es : List MacroEntry) : Prop where
  distinct : (es.map MacroEntry.key).Nodup
  named {e f : MacroEntry} (he : e ∈ es) (hf : f ∈ es) (hunit : f.unit.name = e.unit.name) :
    f.name = e.name
  marked {e f : MacroEntry} (he : e ∈ es) (hf : f ∈ es) (h : f.Completes e)
    (hnone : e.signature.hasBlock = false) : e.kind = .blockless
  completed {e : MacroEntry} (he : e ∈ es) (hkind : e.kind = .blockless) :
    (∃ f ∈ es, f.Completes e) ∨ parted e

namespace Marked

/-- A table without entries. -/
theorem nil : Marked parted [] :=
  ⟨List.nodup_nil, fun he => absurd he List.not_mem_nil, fun he => absurd he List.not_mem_nil,
    fun he => absurd he List.not_mem_nil⟩

/-- More entries may have been parted. -/
theorem mono {parted' : MacroEntry → Prop} (h : Marked parted es)
    (himp : ∀ e, parted e → parted' e) : Marked parted' es :=
  ⟨h.distinct, h.named, h.marked, fun he hkind => (h.completed he hkind).imp_right (himp _)⟩

section Register

variable {m : MacroSpec} {u : LoadedUnit} {e : MacroEntry}

/-- The entries after a macro is registered are its own, and those of other units that stood under
    other names and signatures. -/
theorem mem_register (h : Marked parted es)
    (hown : ∀ e ∈ es, e.unit.name = u.name → e ∈ m.entries e.unit)
    (he : e ∈ (m.entries u).foldl (fun kept e => Keyed.put MacroEntry.key e kept) es) :
    e ∈ m.entries u ∨
      e ∈ es ∧ e.key ∉ (m.entries u).map MacroEntry.key ∧ e.unit.name ≠ u.name := by
  refine (Keyed.mem_foldl_put h.distinct he).imp_right fun ⟨hold, hnew⟩ => ⟨hold, hnew, ?_⟩
  -- an earlier entry of the unit is one of the macro, and the new one has taken its place
  intro hunit
  have hmem := List.mem_map_of_mem (f := MacroEntry.key) (hown e hold hunit)
  rw [MacroSpec.keys_entries] at hmem hnew
  exact hnew hmem

/-- The entries of a macro are in the table once it is registered. -/
theorem mem_register_self (he : e ∈ m.entries u) :
    e ∈ (m.entries u).foldl (fun kept e => Keyed.put MacroEntry.key e kept) es := by
  obtain ⟨x, hx, hkey, hmem⟩ := Keyed.exists_mem_foldl_put MacroEntry.key he es
  rwa [← List.inj_on_of_nodup_map (m.nodup_keys_entries u) hx he hkey]

/-- **Step.** Registering a macro keeps what the marks say.  Only a macro that needs its block can
    part two entries. -/
theorem register (h : Marked parted es)
    (hown : ∀ e ∈ es, e.unit.name = u.name → e ∈ m.entries e.unit)
    (hparted : ∀ e, m.Parts e → parted e) :
    Marked parted ((m.entries u).foldl (fun kept e => Keyed.put MacroEntry.key e kept) es) := by
  have hmem {e : MacroEntry} := h.mem_register (e := e) hown
  have hnew {e : MacroEntry} (he : e ∈ m.entries u) : e.name = m.name ∧ e.unit = u := by
    rcases MacroSpec.mem_entries he with rfl | ⟨-, rfl⟩
    · exact ⟨rfl, rfl⟩
    · exact ⟨rfl, rfl⟩
  -- two entries of one unit are both new, or both old
  have hboth {e f : MacroEntry}
      (he : e ∈ (m.entries u).foldl (fun kept e => Keyed.put MacroEntry.key e kept) es)
      (hf : f ∈ (m.entries u).foldl (fun kept e => Keyed.put MacroEntry.key e kept) es)
      (hunit : f.unit.name = e.unit.name) :
      (e ∈ m.entries u ∧ f ∈ m.entries u) ∨ (e ∈ es ∧ f ∈ es) := by
    rcases hmem he with he | ⟨he, -, hne⟩ <;> rcases hmem hf with hf | ⟨hf, -, hne'⟩
    · exact .inl ⟨he, hf⟩
    · exact absurd (hunit.trans (congrArg LoadedUnit.name (hnew he).2)) hne'
    · exact absurd (hunit.symm.trans (congrArg LoadedUnit.name (hnew hf).2)) hne
    · exact .inr ⟨he, hf⟩
  refine ⟨Keyed.nodup_foldl_put _ h.distinct, fun he hf hunit => ?_, fun he hf hcompletes hnone => ?_,
    fun {e} he hkind => ?_⟩
  · rcases hboth he hf hunit with ⟨he, hf⟩ | ⟨he, hf⟩
    · exact (hnew hf).1.trans (hnew he).1.symm
    · exact h.named he hf hunit
  · rcases hboth he hf hcompletes.1 with ⟨he, hf⟩ | ⟨he, hf⟩
    · -- the full entry has a block, as one of the two has
      rcases MacroSpec.mem_entries he with rfl | ⟨-, rfl⟩
      · rcases MacroSpec.mem_entries hf with rfl | ⟨hoptional, -⟩
        · rw [hcompletes.2.1] at hnone
          cases hnone
        · rw [MacroSpec.hasBlock_of_hasOptionalBlock hoptional] at hnone
          cases hnone
      · rfl
    · exact h.marked he hf hcompletes hnone
  · rcases hmem he with he | ⟨he, hkey, -⟩
    · rcases MacroSpec.mem_entries he with rfl | ⟨hoptional, rfl⟩
      · cases hkind
      · have hfull : ⟨m.name, m.signature, .full, u⟩ ∈ m.entries u := List.mem_cons_self
        exact .inl ⟨_, mem_register_self hfull, rfl,
          MacroSpec.hasBlock_of_hasOptionalBlock hoptional, rfl⟩
    · refine (h.completed he hkind).elim (fun ⟨f, hf, hcompletes⟩ => ?_) .inr
      by_cases hreplaced : f.key ∈ (m.entries u).map MacroEntry.key
      · -- the macro has the name of both, but only one of their signatures
        obtain ⟨hname, hform⟩ := MacroSpec.mem_keys_entries.1 hreplaced
        have hname : m.name = e.name := hname.trans (h.named he hf hcompletes.1)
        have hother : e.signature ∉ m.forms.map Prod.fst := fun hform =>
          hkey (MacroSpec.mem_keys_entries.2 ⟨hname, hform⟩)
        exact .inr (hparted e ⟨hname, hother, f.signature, hform, hcompletes.2⟩)
      · exact .inl ⟨f, Keyed.mem_foldl_put_of_mem hf hreplaced, hcompletes⟩

end Register

/-! ### Reading -/

section Read

variable {d : Descriptor} {macros : List (MacroRecord × LoadedUnit)}
  (hmacros : d.macros = es.map MacroEntry.record) (hrecords : macros.map Prod.fst = d.macros)
  (hunits : ∀ p ∈ macros, p.2.name = p.1.unit)
include hmacros hrecords hunits

/-- The entries that are read as marked ones have no block, and others complete them. -/
theorem kind_read_iff (hdistinct : (es.map MacroEntry.key).Nodup) {e e' : MacroEntry}
    (hsame : e.record = e'.record) (he' : e' ∈ (OwnerType.ofDescriptor d macros).macros.entries) :
    e'.kind = .blockless ↔ e.signature.hasBlock = false ∧ ∃ f ∈ es, f.Completes e := by
  have hdistinct : (d.macros.map MacroRecord.key).Nodup := by
    rwa [hmacros, MacroEntry.map_key_map_record]
  rw [OwnerType.Lockstep.entries_ofDescriptor hrecords hdistinct] at he'
  obtain ⟨p, hp, rfl⟩ := List.mem_map.1 he'
  rw [Descriptor.record_entry (hunits p hp)] at hsame
  rw [← Descriptor.isBlockless_iff hmacros, hsame]
  show (if d.isBlockless p.1 then EntryKind.blockless else .full) = .blockless ↔ _
  cases d.isBlockless p.1 <;> simp

variable (h : Marked parted es)
include h

/-- The records of the entries that are read are those of the entries of the table. -/
theorem records_read :
    (OwnerType.ofDescriptor d macros).macros.entries.map MacroEntry.record =
      es.map MacroEntry.record := by
  have hdistinct : (d.macros.map MacroRecord.key).Nodup := by
    rw [hmacros, MacroEntry.map_key_map_record]
    exact h.distinct
  rw [OwnerType.Lockstep.records_ofDescriptor hrecords hunits hdistinct, hmacros]

theorem exists_record_eq {e' : MacroEntry}
    (he' : e' ∈ (OwnerType.ofDescriptor d macros).macros.entries) :
    ∃ e ∈ es, e.record = e'.record := by
  have hmem := List.mem_map_of_mem (f := MacroEntry.record) he'
  rw [h.records_read hmacros hrecords hunits] at hmem
  exact List.mem_map.1 hmem

/-- The marks that are read say what marks say, and no two entries are parted. -/
theorem read (parted' : MacroEntry → Prop) :
    Marked parted' (OwnerType.ofDescriptor d macros).macros.entries := by
  have hread := h.records_read hmacros hrecords hunits
  have hexists {e' : MacroEntry} (he' : e' ∈ (OwnerType.ofDescriptor d macros).macros.entries) :=
    h.exists_record_eq hmacros hrecords hunits he'
  have hdistinct : ((OwnerType.ofDescriptor d macros).macros.entries.map MacroEntry.key).Nodup := by
    rw [← MacroEntry.map_key_map_record, hread, MacroEntry.map_key_map_record]
    exact h.distinct
  -- the entries that are read have the records too, so what is read can be said of them alone
  have hkind {e : MacroEntry} :=
    kind_read_iff (hmacros.trans hread.symm) hrecords hunits hdistinct (Eq.refl e.record)
  refine ⟨hdistinct, fun he hf hunit => ?_, fun he hf hcompletes hnone => ?_, fun he hmark => ?_⟩
  · obtain ⟨x, hx, hsame⟩ := hexists he
    obtain ⟨y, hy, hsame'⟩ := hexists hf
    have hunit' : y.record.unit = x.record.unit := by
      rw [hsame, hsame']
      exact hunit
    have hname : y.record.name = x.record.name := h.named hx hy hunit'
    rw [hsame, hsame'] at hname
    exact hname
  · exact (hkind he).2 ⟨hnone, _, hf, hcompletes⟩
  · exact .inl ((hkind he).1 hmark).2

/-- Of a descriptor that can be read, the entry of a name and a signature is read as a marked one if
    and only if it is marked and the entry that completes it is still there. -/
theorem kind_read (hlast : d.BlocksLast) {e e' : MacroEntry} (he : e ∈ es)
    (he' : e' ∈ (OwnerType.ofDescriptor d macros).macros.entries) (hkey : e'.key = e.key) :
    e'.kind = .blockless ↔ e.kind = .blockless ∧ ∃ f ∈ es, f.Completes e := by
  obtain ⟨x, hx, hsame⟩ := h.exists_record_eq hmacros hrecords hunits he'
  have hx' : x.key = e.key := (congrArg MacroRecord.key hsame).trans hkey
  obtain rfl : x = e := List.inj_on_of_nodup_map h.distinct hx he hx'
  rw [kind_read_iff hmacros hrecords hunits h.distinct hsame he']
  constructor
  · rintro ⟨hnone, f, hf, hcompletes⟩
    exact ⟨h.marked hx hf hcompletes hnone, f, hf, hcompletes⟩
  · rintro ⟨-, f, hf, hcompletes⟩
    exact ⟨Descriptor.hasBlock_of_completes hlast hmacros hf hcompletes, f, hf, hcompletes⟩

end Read

end Marked

end MacroTable

end Quasiquote
