import Quasiquote.Session.Descriptors
import Quasiquote.Typing.Build
import Quasiquote.Proofs.Keyed
import Quasiquote.Proofs.NameMap

namespace Quasiquote

/-!
# Lockstep — the table and the descriptor of a type

Macros are kept twice, as the entries of a table and as the records of a descriptor, and each
list is searched and extended on its own.  Both always list the same macros in the same order,
and no two of them under one name and signature.  Methods are kept twice as well, and a record
of a method says what the method is, up to what its type names mean.

* `MacroEntry.key`, `MacroTable.addTo_eq_put` — tables as lists with keys;
* `MacroEntry.record`, `MacroRecord.key` — the record of an entry, and what tells records apart;
* `OwnerType.Lockstep.entries_ofDescriptor` — the table that is read from records;
* `OwnerType.Lockstep` — the invariant of a type;
* `OwnerType.Lockstep.withMacro`, `OwnerType.Lockstep.ofDescriptor` — registering a macro keeps it,
  and importing a type brings it about;
* `MacroTable.map_record_resolve` — the records alone decide what a call means;
* `Method.reread`, `methodEntries` — methods as they come back from their records.
-/

/-- The name and the signature under which an entry stands. -/
def MacroEntry.key (e : MacroEntry) : String × Signature := (e.name, e.signature)

theorem MacroEntry.hasKey_iff {e x : MacroEntry} :
    x.hasKey e.name e.signature = true ↔ x.key = e.key := by
  simp [hasKey, key]

/-- The record of an entry. -/
def MacroEntry.record (e : MacroEntry) : MacroRecord := ⟨e.name, e.signature, e.unit.name⟩

/-- What tells records apart. -/
def MacroRecord.key (r : MacroRecord) : String × Signature := (r.name, r.signature)

theorem MacroEntry.map_key_map_record (es : List MacroEntry) :
    (es.map MacroEntry.record).map MacroRecord.key = es.map MacroEntry.key := by
  rw [List.map_map]
  rfl

/-- Whether a call of a name fits a record. -/
def MacroRecord.fits (r : MacroRecord) (name : String) (argc : Nat) (block : Bool) : Bool :=
  r.name == name && r.signature.accepts argc block

namespace MacroTable

theorem addTo_eq_put (e : MacroEntry) (xs : List MacroEntry) :
    addTo e xs = (Keyed.put MacroEntry.key e xs, decide (e.key ∉ xs.map MacroEntry.key)) := by
  induction xs with
  | nil => simp [addTo, Keyed.put]
  | cons x xs ih =>
    rw [addTo, Keyed.put, ih]
    by_cases hkey : x.key = e.key
    · rw [if_pos (MacroEntry.hasKey_iff.2 hkey), if_pos hkey]
      simp [hkey]
    · rw [if_neg (mt MacroEntry.hasKey_iff.1 hkey), if_neg hkey]
      simp [Ne.symm hkey]

theorem entries_foldl_add (t : MacroTable) (added : List MacroEntry) :
    (added.foldl (fun t e => (t.add e).1) t).entries =
      added.foldl (fun kept e => Keyed.put MacroEntry.key e kept) t.entries := by
  induction added generalizing t with
  | nil => rfl
  | cons e added ih => rw [List.foldl_cons, ih, List.foldl_cons, add, addTo_eq_put]

/-- Adding an entry and recording it are the same search. -/
theorem map_record_addTo (e : MacroEntry) (xs : List MacroEntry) :
    (addTo e xs).1.map MacroEntry.record =
      (Descriptor.addMacroTo e.record (xs.map MacroEntry.record)).1 := by
  induction xs with
  | nil => rfl
  | cons x xs ih =>
    have hsame : x.hasKey e.name e.signature = true ↔
        x.record.name = e.record.name ∧ x.record.signature = e.record.signature := by
      simp [MacroEntry.hasKey, MacroEntry.record]
    rw [List.map_cons, addTo, Descriptor.addMacroTo]
    by_cases h : x.hasKey e.name e.signature = true
    · rw [if_pos h, if_pos (hsame.1 h), (hsame.1 h).1, (hsame.1 h).2]
      rfl
    · rw [if_neg h, if_neg (mt hsame.2 h)]
      exact congrArg (x.record :: ·) ih

/-- The records alone decide what a call means. -/
theorem map_record_resolve (t : MacroTable) (name : String) (argc : Nat) (block : Bool) :
    (t.resolve name argc block).map MacroEntry.record =
      (t.entries.map MacroEntry.record).find? (·.fits name argc block) := by
  rw [List.find?_map]
  rfl

end MacroTable

namespace Descriptor

/-- A record is put in the place of the one with its name and signature. -/
theorem addMacroTo_eq_put (r : MacroRecord) (xs : List MacroRecord) :
    (addMacroTo r xs).1 = Keyed.put MacroRecord.key r xs := by
  induction xs with
  | nil => rfl
  | cons x xs ih =>
    rw [addMacroTo, Keyed.put]
    by_cases hsame : x.name = r.name ∧ x.signature = r.signature
    · rw [if_pos hsame, if_pos (Prod.ext hsame.1 hsame.2), hsame.1, hsame.2]
    · have hkey : x.key ≠ r.key := fun hkey =>
        hsame ⟨congrArg Prod.fst hkey, congrArg Prod.snd hkey⟩
      rw [if_neg hsame, if_neg hkey]
      exact congrArg (x :: ·) ih

/-- A record whose key is new comes last. -/
theorem addMacroTo_of_not_mem {r : MacroRecord} {xs : List MacroRecord}
    (h : r.key ∉ xs.map MacroRecord.key) : (addMacroTo r xs).1 = xs ++ [r] := by
  rw [addMacroTo_eq_put, Keyed.put_of_not_mem h]

/-- A record takes the place of the one with its key. -/
theorem keys_addMacroTo_of_mem {r : MacroRecord} {xs : List MacroRecord}
    (h : r.key ∈ xs.map MacroRecord.key) :
    (addMacroTo r xs).1.map MacroRecord.key = xs.map MacroRecord.key := by
  rw [addMacroTo_eq_put, Keyed.keys_put_of_mem h]

/-- No two records get the same key. -/
theorem nodup_addMacroTo (r : MacroRecord) {xs : List MacroRecord}
    (h : (xs.map MacroRecord.key).Nodup) : ((addMacroTo r xs).1.map MacroRecord.key).Nodup := by
  rw [addMacroTo_eq_put]
  exact Keyed.nodup_put r h

end Descriptor

/-! ### Methods -/

/-- What a method comes back as from its record: its static types are those that their names mean. -/
def Method.reread (m : Method) : Method := .ofRecord m.record

@[simp] theorem Method.record_ofRecord (r : MethodRecord) : (Method.ofRecord r).record = r := by
  simp [Method.record, Method.ofRecord, Function.comp_def, TypeRef.name_ofName]

namespace Descriptor

/-- The methods that are read from the records. -/
def methodEntries (ms : List MethodRecord) : List (String × Method) :=
  ms.map fun m => (m.name, Method.ofRecord m)

theorem map_fst_methodEntries (ms : List MethodRecord) :
    (methodEntries ms).map Prod.fst = ms.map MethodRecord.name := by
  simp [methodEntries]

/-- A record is read under its name, and others are read as before. -/
theorem find_addMethodTo (r : MethodRecord) (ms : List MethodRecord) (x : String) :
    NameMap.find x (methodEntries (addMethodTo r ms)) =
      if x = r.name then some (.ofRecord r) else NameMap.find x (methodEntries ms) := by
  induction ms with
  | nil => rfl
  | cons m ms ih =>
    rw [addMethodTo]
    by_cases h : m.name = r.name
    · rw [if_pos h]
      by_cases hx : x = r.name
      · simp [methodEntries, NameMap.find, hx]
      · simp [methodEntries, NameMap.find, hx, h]
    · rw [if_neg h]
      by_cases hx : x = m.name
      · have hne : x ≠ r.name := hx ▸ h
        simp [methodEntries, NameMap.find, hx, h]
      · simpa [methodEntries, NameMap.find, hx] using ih

/-- The record of a method is put in the place of the one with its name. -/
theorem addMethodTo_eq_put (r : MethodRecord) (ms : List MethodRecord) :
    addMethodTo r ms = Keyed.put MethodRecord.name r ms := by
  induction ms with
  | nil => rfl
  | cons m ms ih => rw [addMethodTo, Keyed.put, ih]

/-- No two records of methods get the same name. -/
theorem nodup_addMethodTo (r : MethodRecord) {ms : List MethodRecord}
    (h : (ms.map MethodRecord.name).Nodup) : ((addMethodTo r ms).map MethodRecord.name).Nodup := by
  rw [addMethodTo_eq_put]
  exact Keyed.nodup_put r h

/-- The entry that is read from a record. -/
def entry (d : Descriptor) (p : MacroRecord × LoadedUnit) : MacroEntry :=
  ⟨p.1.name, p.1.signature, if d.isBlockless p.1 then .blockless else .full, p.2⟩

/-- A record comes back from the entry that is read from it. -/
theorem record_entry {d : Descriptor} {p : MacroRecord × LoadedUnit} (h : p.2.name = p.1.unit) :
    (d.entry p).record = p.1 := by
  show (⟨p.1.name, p.1.signature, p.2.name⟩ : MacroRecord) = p.1
  rw [h]

/-- Whether no two records of a descriptor stand for the same macro or method. -/
structure Distinct (d : Descriptor) : Prop where
  macros : (d.macros.map MacroRecord.key).Nodup
  methods : (d.methods.map MethodRecord.name).Nodup

end Descriptor

namespace OwnerType

/-- Whether a type lists the same macros in its table and its descriptor, and the same methods, no
    two of them the same. -/
structure Lockstep (t : OwnerType) : Prop where
  distinct : ((t.macros.entries.map MacroEntry.record).map MacroRecord.key).Nodup
  macros : ∀ d, t.descriptor = some d → d.macros = t.macros.entries.map MacroEntry.record
  name : ∀ d, t.descriptor = some d → d.name = t.name
  superclass : ∀ d, t.descriptor = some d → d.superclass = t.superclass
  methodNames : ∀ d, t.descriptor = some d → (d.methods.map MethodRecord.name).Nodup
  methods : ∀ d, t.descriptor = some d → ∀ x,
    NameMap.find x (Descriptor.methodEntries d.methods) = (t.methods.get? x).map Method.reread

/-- A type with one more entry, which is recorded too. -/
def register (t : OwnerType) (e : MacroEntry) : OwnerType := (t.addEntry e).1.recordMacro e.record

/-- A macro is registered under its full signature, and without its block if that is optional. -/
theorem withMacro_eq {spec : MacroSpec} {unit : String} {loaded : LoadedUnit}
    (h : loaded.name = unit) (t : OwnerType) :
    Typer.withMacro spec unit loaded t =
      let full := t.register ⟨spec.name, spec.signature, .full, loaded⟩
      if spec.hasOptionalBlock then
        full.register ⟨spec.name, spec.signature.withoutBlock, .blockless, loaded⟩
      else full := by
  subst h
  unfold Typer.withMacro Typer.recordsOf
  cases spec.hasOptionalBlock <;> rfl

theorem name_withMacro (spec : MacroSpec) (unit : String) (loaded : LoadedUnit) (t : OwnerType) :
    (Typer.withMacro spec unit loaded t).name = t.name := by
  unfold Typer.withMacro Typer.recordsOf
  cases spec.hasOptionalBlock <;> rfl

namespace Lockstep

variable {t : OwnerType}

/-- The descriptor of such a type lists nothing twice. -/
theorem descriptor_distinct (h : t.Lockstep) {d : Descriptor} (hd : t.descriptor = some d) :
    d.Distinct where
  macros := h.macros d hd ▸ h.distinct
  methods := h.methodNames d hd

/-- A type without a descriptor and without macros. -/
theorem of_empty (hentries : t.macros.entries = []) (hnone : t.descriptor = none) :
    t.Lockstep := by
  have hno (d : Descriptor) : t.descriptor ≠ some d := by
    rw [hnone]
    simp
  exact ⟨by simp [hentries], fun d hd => absurd hd (hno d), fun d hd => absurd hd (hno d),
    fun d hd => absurd hd (hno d), fun d hd => absurd hd (hno d), fun d hd => absurd hd (hno d)⟩

/-- A type of a program starts without macros and methods. -/
theorem ofProgram (name : String) (superclass : Option String) (persistent : Bool) :
    (OwnerType.ofProgram name superclass persistent).Lockstep := by
  cases persistent with
  | false => exact of_empty rfl rfl
  | true =>
    refine ⟨List.nodup_nil, fun d hd => ?_, fun d hd => ?_, fun d hd => ?_, fun d hd => ?_,
      fun d hd => ?_⟩
    all_goals cases hd
    · rfl
    · rfl
    · rfl
    · exact List.nodup_nil
    · exact fun _ => rfl

/-- A method is declared in the descriptor too. -/
theorem define (h : t.Lockstep) (m : Method) : (t.define m).Lockstep := by
  refine ⟨h.distinct, fun d hd => ?_, fun d hd => ?_, fun d hd => ?_, fun d hd => ?_,
    fun d hd x => ?_⟩
  all_goals obtain ⟨d, hold, rfl⟩ := Option.map_eq_some_iff.1 hd
  · exact h.macros d hold
  · exact h.name d hold
  · exact h.superclass d hold
  · exact Descriptor.nodup_addMethodTo _ (h.methodNames d hold)
  · have hname : m.record.name = m.name := rfl
    show NameMap.find x (Descriptor.methodEntries (Descriptor.addMethodTo m.record d.methods)) =
      ((t.methods.insert m.name m).get? x).map Method.reread
    rw [Descriptor.find_addMethodTo, NameMap.get?_insert, hname]
    by_cases hx : x = m.name
    · rw [if_pos hx, if_pos hx]
      rfl
    · rw [if_neg hx, if_neg hx, h.methods d hold]

/-- One more entry is one more record. -/
theorem register (h : t.Lockstep) (e : MacroEntry) : (t.register e).Lockstep := by
  have hentries : (t.register e).macros.entries = (MacroTable.addTo e t.macros.entries).1 := rfl
  refine ⟨?_, fun d hd => ?_, fun d hd => ?_, fun d hd => ?_, fun d hd => ?_, fun d hd => ?_⟩
  · rw [hentries, MacroTable.map_record_addTo]
    exact Descriptor.nodup_addMacroTo _ h.distinct
  all_goals obtain ⟨d, hold, rfl⟩ := Option.map_eq_some_iff.1 hd
  · rw [hentries, MacroTable.map_record_addTo, ← h.macros d hold]
    rfl
  · exact h.name d hold
  · exact h.superclass d hold
  · exact h.methodNames d hold
  · exact h.methods d hold

/-- Registering a macro keeps table and descriptor in step. -/
theorem withMacro (h : t.Lockstep) (spec : MacroSpec) {unit : String} {loaded : LoadedUnit}
    (hloaded : loaded.name = unit) : (Typer.withMacro spec unit loaded t).Lockstep := by
  rw [withMacro_eq hloaded]
  cases spec.hasOptionalBlock
  · exact h.register _
  · exact (h.register _).register _

/-- The table of an imported type has the entries that are read from the records, in order. -/
theorem entries_ofDescriptor {d : Descriptor} {macros : List (MacroRecord × LoadedUnit)}
    (hrecords : macros.map Prod.fst = d.macros)
    (hdistinct : (d.macros.map MacroRecord.key).Nodup) :
    (OwnerType.ofDescriptor d macros).macros.entries = macros.map d.entry := by
  have hentries : (OwnerType.ofDescriptor d macros).macros =
      (macros.map d.entry).foldl (fun table e => (table.add e).1) {} := by
    rw [List.foldl_map]
    rfl
  have hkeys : (macros.map d.entry).map MacroEntry.key = d.macros.map MacroRecord.key := by
    rw [← hrecords, List.map_map, List.map_map]
    rfl
  rw [hentries, MacroTable.entries_foldl_add]
  exact Keyed.foldl_put_of_nodup (by rw [List.nil_append, hkeys]; exact hdistinct)

/-- The table of an imported type has an entry for each record. -/
theorem records_ofDescriptor {d : Descriptor} {macros : List (MacroRecord × LoadedUnit)}
    (hrecords : macros.map Prod.fst = d.macros) (hunits : ∀ p ∈ macros, p.2.name = p.1.unit)
    (hdistinct : (d.macros.map MacroRecord.key).Nodup) :
    (OwnerType.ofDescriptor d macros).macros.entries.map MacroEntry.record = d.macros := by
  rw [entries_ofDescriptor hrecords hdistinct, List.map_map, ← hrecords]
  exact List.map_congr_left fun p hp => Descriptor.record_entry (hunits p hp)

/-- The methods of an imported type are those of the records. -/
theorem methods_ofDescriptor {d : Descriptor} (macros : List (MacroRecord × LoadedUnit))
    (h : (d.methods.map MethodRecord.name).Nodup) (x : String) :
    (OwnerType.ofDescriptor d macros).methods.get? x =
      NameMap.find x (Descriptor.methodEntries d.methods) := by
  have hnames : ((Descriptor.methodEntries d.methods).map Prod.fst).Nodup := by
    rwa [Descriptor.map_fst_methodEntries]
  exact NameMap.get?_ofList hnames x

/-- A method that was read comes back as it is. -/
theorem reread_of_find {ms : List MethodRecord} {x : String} {m : Method}
    (h : NameMap.find x (Descriptor.methodEntries ms) = some m) : m.reread = m := by
  induction ms with
  | nil => cases h
  | cons r ms ih =>
    rw [Descriptor.methodEntries, List.map_cons, NameMap.find] at h
    split at h
    · cases h
      rw [Method.reread, Method.record_ofRecord]
    · exact ih h

/-- An imported type lists the macros and methods of its descriptor. -/
theorem ofDescriptor {d : Descriptor} {macros : List (MacroRecord × LoadedUnit)}
    (hrecords : macros.map Prod.fst = d.macros) (hunits : ∀ p ∈ macros, p.2.name = p.1.unit)
    (hdistinct : d.Distinct) : (OwnerType.ofDescriptor d macros).Lockstep := by
  have hentries := records_ofDescriptor hrecords hunits hdistinct.macros
  refine ⟨by rw [hentries]; exact hdistinct.macros, fun d' hd => ?_, fun d' hd => ?_,
    fun d' hd => ?_, fun d' hd => ?_, fun d' hd x => ?_⟩
  all_goals cases hd
  · exact hentries.symm
  · rfl
  · rfl
  · exact hdistinct.methods
  · rw [methods_ofDescriptor macros hdistinct.methods]
    cases hx : NameMap.find x (Descriptor.methodEntries d.methods) with
    | none => rfl
    | some m => rw [Option.map_some, reread_of_find hx]

end Lockstep

end OwnerType

end Quasiquote
