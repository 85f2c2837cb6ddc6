import Quasiquote.Proofs.Files
import Quasiquote.Proofs.Json.Bytes
import Quasiquote.Proofs.Macro.Signature
import Quasiquote.Proofs.Types.Lockstep

namespace Quasiquote

/-!
# Records of a descriptor — written, read and added

A descriptor that has been written is found again.  Records may be added to it in any order: of each
macro and each method the last record is kept, at the place of the first one.

* `Descriptor.find_of_writeAll` — what is found after a descriptor was written;
* `Descriptor.Addition`, `Descriptor.add` — one more record;
* `Descriptor.foldl_add` — the records after any additions;
* `Descriptor.addMacroTo_eq_self_iff` — when a record changes nothing;
* `Descriptor.read_back_and_latest` — all of these together.
-/

namespace Descriptor

variable {d : Descriptor} {r : MacroRecord} {xs : List MacroRecord} {root : String}
  {fs fs' : Files} {paths : List String}

/-! ### Files -/

theorem blocksLast_iff :
    d.BlocksLast ↔ ∀ r ∈ d.macros, ∀ k ∈ r.signature.params.dropLast, k ≠ .block :=
  forall₂_congr fun _ _ => Signature.blockLast_iff

/-- The file of a descriptor that has been written has its text. -/
theorem text?_of_writeAll (h : (writeAll root [d]).run fs = (.ok paths, fs')) :
    fs'.text? (Path.ofText (pathIn root d.name)) = some d.encode := by
  rw [writeAll] at h
  obtain ⟨_, fs₁, -, hrest⟩ := exists_of_run_bind h
  obtain ⟨_, fs₂, hwrite, hnone⟩ := exists_of_run_bind hrest
  cases hnone
  simp only [FilesM.write, FilesM.change_run] at hwrite
  split at hwrite
  · rename_i fs₃ hok
    cases hwrite
    exact Files.text?_write_self hok
  · cases hwrite

/-- A descriptor that has been written is found, as it was. -/
theorem find_of_writeAll (hlast : d.BlocksLast)
    (h : (writeAll root [d]).run fs = (.ok paths, fs')) :
    find fs' d.name [root] = .ok (some d) := by
  simp only [find, text?_of_writeAll h, decode?_encode hlast]

/-! ### Additions -/

/-- What is added to a descriptor: the record of a macro, or that of a method. -/
inductive Addition where
  | ofMacro (r : MacroRecord)
  | ofMethod (r : MethodRecord)

namespace Addition

/-- The record of a macro that is added, if it is one. -/
def macroRecord? : Addition → Option MacroRecord
  | .ofMacro r => some r
  | .ofMethod _ => none

/-- The record of a method that is added, if it is one. -/
def methodRecord? : Addition → Option MethodRecord
  | .ofMacro _ => none
  | .ofMethod r => some r

end Addition

/-- A descriptor with one more record. -/
def add (d : Descriptor) : Addition → Descriptor
  | .ofMacro r => (d.addMacro r).1
  | .ofMethod r => d.addMethod r

theorem add_ofMacro (d : Descriptor) (r : MacroRecord) :
    d.add (.ofMacro r) = { d with macros := Keyed.put MacroRecord.key r d.macros } := by
  rw [← addMacroTo_eq_put]
  rfl

theorem add_ofMethod (d : Descriptor) (r : MethodRecord) :
    d.add (.ofMethod r) = { d with methods := Keyed.put MethodRecord.name r d.methods } := by
  rw [← addMethodTo_eq_put]
  rfl

/-- Records of macros and of methods are put in their places independently, and nothing else
    changes. -/
theorem foldl_add (d : Descriptor) (additions : List Addition) :
    additions.foldl add d = { d with
      macros := (additions.filterMap Addition.macroRecord?).foldl
        (fun kept r => Keyed.put MacroRecord.key r kept) d.macros
      methods := (additions.filterMap Addition.methodRecord?).foldl
        (fun kept r => Keyed.put MethodRecord.name r kept) d.methods } := by
  induction additions generalizing d with
  | nil => rfl
  | cons a additions ih =>
    rw [List.foldl_cons, ih]
    -- an addition of one kind leaves the records of the other kind alone
    cases a with
    | ofMacro r =>
      rw [add_ofMacro]
      rfl
    | ofMethod r =>
      rw [add_ofMethod]
      rfl

/-- A record is reported to have changed nothing if and only if the records are the same. -/
theorem addMacroTo_eq_self_iff : (addMacroTo r xs).2 = false ↔ (addMacroTo r xs).1 = xs := by
  induction xs with
  | nil => simp [addMacroTo]
  | cons x xs ih =>
    rw [addMacroTo]
    by_cases hsame : x.name = r.name ∧ x.signature = r.signature
    · rw [if_pos hsame]
      rw [bne_eq_false_iff_eq, List.cons.injEq, and_iff_left rfl, MacroRecord.mk.injEq,
        and_iff_right rfl, and_iff_right rfl]
      exact eq_comm
    · rw [if_neg hsame]
      simpa using ih

/-- What is written of a descriptor is read as the descriptor, from its bytes and from its file, if
    only last parameters of macros are blocks.  A new descriptor to which records are added, in any
    number and order, keeps its name and superclass, and of each macro and each method the record that
    was added last, in the order in which they were added first; and a macro is reported to have
    changed nothing if and only if the descriptor is the same. -/
theorem read_back_and_latest :
    (∀ d : Descriptor, (∀ r ∈ d.macros, ∀ k ∈ r.signature.params.dropLast, k ≠ .block) →
      decode? (Json.ofBytes (Utf8.bytes d.encode.toList)) = some d ∧
      ∀ root fs fs' paths, (writeAll root [d]).run fs = (.ok paths, fs') →
        find fs' d.name [root] = .ok (some d)) ∧
    (∀ name superclass (additions : List Addition),
      let d : Descriptor := additions.foldl add ⟨name, superclass, [], []⟩
      d.name = name ∧ d.superclass = superclass ∧
      Keyed.Latest MacroRecord.key (additions.filterMap Addition.macroRecord?) d.macros ∧
      Keyed.Latest MethodRecord.name (additions.filterMap Addition.methodRecord?) d.methods) ∧
    (∀ (d : Descriptor) (r : MacroRecord), (d.addMacro r).2 = false ↔ (d.addMacro r).1 = d) := by
  refine ⟨?_, ?_, ?_⟩
  · intro d h
    have hlast := blocksLast_iff.2 h
    refine ⟨?_, fun root fs fs' paths hrun => find_of_writeAll hlast hrun⟩
    rw [Json.ofBytes_bytes, decode?_encode hlast]
  · intro name superclass additions d
    have hd : d = _ := foldl_add ⟨name, superclass, [], []⟩ additions
    rw [hd]
    exact ⟨rfl, rfl, Keyed.latest_foldl _ _, Keyed.latest_foldl _ _⟩
  · intro d r
    have hsame : (d.addMacro r).1 = d ↔ (addMacroTo r d.macros).1 = d.macros :=
      ⟨congrArg macros, fun h => congrArg (fun rs => { d with macros := rs }) h⟩
    rw [hsame, ← addMacroTo_eq_self_iff]
    rfl

/-- A macro that is defined again keeps its place and gets another unit. -/
theorem read_back_and_latest_repointed :
    let greet (unit : String) : MacroRecord := ⟨"greet", ⟨[.required, .block]⟩, unit⟩
    let d : Descriptor := [.ofMacro (greet "Kit.greet1"), .ofMethod ⟨"hail", ["x"], "Any"⟩,
      .ofMacro (greet "Kit.greet2")].foldl add ⟨"Kit", none, [], []⟩
    (∀ r ∈ d.macros, ∀ k ∈ r.signature.params.dropLast, k ≠ .block) ∧
    d.macros = [greet "Kit.greet2"] ∧
    decode? (Json.ofBytes (Utf8.bytes d.encode.toList)) = some d ∧
    (∃ paths fs, (writeAll "out" [d]).run {} = (.ok paths, fs) ∧
      find fs "Kit" ["out"] = .ok (some d)) ∧
    (d.addMacro (greet "Kit.greet2")).2 = false := by
  intro greet d
  obtain ⟨hread, -, hchanged⟩ := read_back_and_latest
  have hlast : ∀ r ∈ d.macros, ∀ k ∈ r.signature.params.dropLast, k ≠ .block := by decide
  obtain ⟨hdecode, hfind⟩ := hread d hlast
  have hwritten : ((writeAll "out" [d]).run {}).1.isOk = true := by decide +kernel
  refine ⟨hlast, by decide, hdecode, ?_, (hchanged d _).2 (by decide)⟩
  rcases hrun : (writeAll "out" [d]).run {} with ⟨e | paths, fs⟩
  · rw [hrun] at hwritten
    cases hwritten
  · exact ⟨paths, fs, rfl, hfind "out" {} fs paths hrun⟩

end Descriptor

end Quasiquote
