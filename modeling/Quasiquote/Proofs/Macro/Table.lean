import Quasiquote.Proofs.Keyed
import Quasiquote.Proofs.Macro.Entries
import Quasiquote.Proofs.Macro.Signature
import Quasiquote.Proofs.Types.Lockstep

namespace Quasiquote

/-!
# Macro tables — any additions, and the calls that they answer

Additions replace each other by name and signature, and keep the places of those they replace.  The
entries of one name may overlap, and then the first place counts.  Those of a macro whose block may be
left out do not: with and without its block, it takes the same numbers of arguments.

* `MacroTable.addAll`, with `MacroTable.entries_addAll` and `MacroTable.reports_addAll` — additions
  and what is told of them;
* `MacroEntry.Answers`, `MacroTable.resolve_eq_some_iff`, `MacroTable.resolve_eq_none_iff` — what a
  call resolves to;
* `MacroTable.latest_and_resolved` — all of these together.
-/

namespace MacroTable

/-! ### Additions -/

/-- Adds entries one after the other; tells of each whether its name and signature were new. -/
def addAll (t : MacroTable) : List MacroEntry → MacroTable × List Bool
  | [] => (t, [])
  | e :: es =>
    let (t, added) := t.add e
    let (t, rest) := addAll t es
    (t, added :: rest)

theorem entries_addAll (t : MacroTable) (added : List MacroEntry) :
    (t.addAll added).1.entries =
      added.foldl (fun kept e => Keyed.put MacroEntry.key e kept) t.entries := by
  have hadd : (t.addAll added).1 = added.foldl (fun t e => (t.add e).1) t := by
    induction added generalizing t with
    | nil => rfl
    | cons e added ih => exact ih _
  rw [hadd, entries_foldl_add]

/-- Of an addition it is told that it is new if its key is not in the table and did not come up
    before. -/
theorem reports_addAll (t : MacroTable) (added : List MacroEntry) :
    (t.addAll added).2 = added.mapIdx fun i e =>
      decide (e.key ∉ t.entries.map MacroEntry.key ∧ e.key ∉ (added.take i).map MacroEntry.key) := by
  induction added generalizing t with
  | nil => rfl
  | cons e added ih =>
    have hadd : (t.addAll (e :: added)).2 = (t.add e).2 :: ((t.add e).1.addAll added).2 := rfl
    rw [hadd, List.mapIdx_cons, ih, add, addTo_eq_put]
    refine congrArg₂ List.cons (by simp) (congrArg (List.mapIdx · added) ?_)
    funext i x
    -- the first addition is in the table now, and among those that came up before
    rw [decide_eq_decide, Keyed.mem_keys_put, List.take_succ_cons, List.map_cons, List.mem_cons]
    tauto

end MacroTable

/-! ### Calls -/

/-- Whether an entry has the name of a call and takes its block and its number of arguments. -/
def MacroEntry.Answers (e : MacroEntry) (name : String) (argc : Nat) (block : Bool) : Prop :=
  e.name = name ∧ e.signature.hasBlock = block ∧
    e.signature.required ≤ argc ∧ argc ≤ e.signature.positional

theorem MacroEntry.fits_iff {e : MacroEntry} {name : String} {argc : Nat} {block : Bool} :
    e.fits name argc block = true ↔ e.Answers name argc block := by
  simp [fits, Signature.accepts, Answers, and_assoc]

namespace MacroTable

variable {t : MacroTable} {e : MacroEntry} {name : String} {argc : Nat} {block : Bool}

/-- A call resolves to the first entry that answers it. -/
theorem resolve_eq_some_iff : t.resolve name argc block = some e ↔
    ∃ before after, t.entries = before ++ e :: after ∧ e.Answers name argc block ∧
      ∀ x ∈ before, ¬ x.Answers name argc block := by
  rw [resolve, List.find?_eq_some_iff_append]
  simp only [MacroEntry.fits_iff, Bool.not_eq_true', ← Bool.not_eq_true]
  constructor
  · rintro ⟨hanswers, before, after, hentries, hbefore⟩
    exact ⟨before, after, hentries, hanswers, hbefore⟩
  · rintro ⟨before, after, hentries, hanswers, hbefore⟩
    exact ⟨hanswers, before, after, hentries, hbefore⟩

theorem resolve_eq_none_iff : t.resolve name argc block = none ↔
    ∀ e ∈ t.entries, ¬ e.Answers name argc block := by
  simp only [resolve, List.find?_eq_none, MacroEntry.fits_iff]

/-- If only one entry answers a call, the call resolves to it, whatever its place. -/
theorem resolve_of_unique (hmem : e ∈ t.entries) (h : e.Answers name argc block)
    (hunique : ∀ x ∈ t.entries, x.Answers name argc block → x = e) :
    t.resolve name argc block = some e := by
  cases hfound : t.resolve name argc block with
  | none => exact absurd h (resolve_eq_none_iff.1 hfound e hmem)
  | some x =>
    obtain ⟨before, after, hentries, hanswers, -⟩ := resolve_eq_some_iff.1 hfound
    have hx : x ∈ t.entries := by rw [hentries]; simp
    rw [hunique x hx hanswers]

end MacroTable

/-! ### A block that may be left out -/

namespace MacroTable

/-- A macro whose block may be left out has both of its entries when it is registered. -/
theorem mem_withMacro {m : MacroSpec} {unit : String} {loaded : LoadedUnit} {t : OwnerType}
    (h : m.hasOptionalBlock = true) :
    let table := (Typer.withMacro m unit loaded t).macros
    ⟨m.name, m.signature, .full, loaded⟩ ∈ table.entries ∧
    ⟨m.name, m.signature.withoutBlock, .blockless, loaded⟩ ∈ table.entries := by
  intro table
  have hentries : m.entries loaded = [⟨m.name, m.signature, .full, loaded⟩,
      ⟨m.name, m.signature.withoutBlock, .blockless, loaded⟩] := by
    rw [MacroSpec.entries, MacroSpec.forms, if_pos h]
    rfl
  have htable : table = _ := OwnerType.macros_withMacro m unit loaded t
  rw [htable, hentries]
  refine ⟨?_, mem_addTo _ _⟩
  -- the entry that is added first is not replaced, since the signatures differ
  show _ ∈ (addTo _ (addTo _ _).1).1
  rw [addTo_eq_put]
  refine Keyed.mem_put_of_mem (mem_addTo _ _) fun hkey => ?_
  exact MacroSpec.withoutBlock_ne h (congrArg Prod.snd hkey).symm

/-- After any additions to an empty table, it has one entry for each name and signature, in the order
    in which these were added first and each as it was added last; and an addition was reported as new
    if and only if its name and signature had not been added before.  In any table, a call resolves to
    the first entry of its name that takes its block and its number of arguments, and to none if and
    only if there is none.  When a macro is registered whose last parameter, and no other one, is a
    block that may be left out, and no entry but its two has its name, then calls with the block are
    answered by the full entry only and calls without it by the other one only, both with the same
    numbers of arguments. -/
theorem latest_and_resolved :
    (∀ added : List MacroEntry,
      let (table, reports) := ({} : MacroTable).addAll added
      Keyed.Latest MacroEntry.key added table.entries ∧
      reports = added.mapIdx fun i e => decide (e.key ∉ (added.take i).map MacroEntry.key)) ∧
    (∀ (t : MacroTable) name argc block,
      (∀ e, t.resolve name argc block = some e ↔
        ∃ before after, t.entries = before ++ e :: after ∧ e.Answers name argc block ∧
          ∀ x ∈ before, ¬ x.Answers name argc block) ∧
      (t.resolve name argc block = none ↔ ∀ e ∈ t.entries, ¬ e.Answers name argc block)) ∧
    (∀ (m : MacroSpec) unit loaded (t : OwnerType), m.hasOptionalBlock = true →
      (∀ k ∈ m.signature.params.dropLast, k ≠ .block) →
      let table := (Typer.withMacro m unit loaded t).macros
      let full : MacroEntry := ⟨m.name, m.signature, .full, loaded⟩
      let overload : MacroEntry := ⟨m.name, m.signature.withoutBlock, .blockless, loaded⟩
      full ∈ table.entries ∧ overload ∈ table.entries ∧
      ((∀ e ∈ table.entries, e.name = m.name → e = full ∨ e = overload) → ∀ argc block,
        let taken := m.signature.required ≤ argc ∧ argc ≤ m.signature.positional
        (full.Answers m.name argc block ↔ block = true ∧ taken) ∧
        (overload.Answers m.name argc block ↔ block = false ∧ taken) ∧
        table.resolve m.name argc block =
          if taken then some (if block then full else overload) else none)) := by
  refine ⟨?_, fun t name argc block => ⟨fun e => resolve_eq_some_iff, resolve_eq_none_iff⟩, ?_⟩
  · intro added
    have hentries := entries_addAll {} added
    have hreports := reports_addAll {} added
    simp only [List.map_nil, List.not_mem_nil, not_false_eq_true, true_and] at hreports
    refine ⟨?_, hreports⟩
    rw [hentries]
    exact Keyed.latest_foldl _ _
  · intro m unit loaded t hoptional hlast table full overload
    have hblock := MacroSpec.hasBlock_of_hasOptionalBlock hoptional
    obtain ⟨hmem, hmem'⟩ : full ∈ table.entries ∧ overload ∈ table.entries :=
      mem_withMacro hoptional
    refine ⟨hmem, hmem', ?_⟩
    intro honly argc block taken
    have hfull : full.Answers m.name argc block ↔ block = true ∧ taken := by
      simp [MacroEntry.Answers, full, hblock, taken, eq_comm]
    have hoverload : overload.Answers m.name argc block ↔ block = false ∧ taken := by
      simp [MacroEntry.Answers, overload, taken, Signature.hasBlock_withoutBlock hblock hlast,
        Signature.required_withoutBlock, Signature.positional_withoutBlock, eq_comm]
    refine ⟨hfull, hoverload, ?_⟩
    by_cases htaken : taken
    · rw [if_pos htaken]
      -- the flag of the call tells which of the two entries answers it
      cases block with
      | false =>
        refine resolve_of_unique hmem' (hoverload.2 ⟨rfl, htaken⟩) fun x hx hanswers => ?_
        rcases honly x hx hanswers.1 with rfl | rfl
        · cases (hfull.1 hanswers).1
        · rfl
      | true =>
        refine resolve_of_unique hmem (hfull.2 ⟨rfl, htaken⟩) fun x hx hanswers => ?_
        rcases honly x hx hanswers.1 with rfl | rfl
        · rfl
        · cases (hoverload.1 hanswers).1
    · rw [if_neg htaken, resolve_eq_none_iff]
      intro x hx hanswers
      rcases honly x hx hanswers.1 with rfl | rfl
      · exact htaken (hfull.1 hanswers).2
      · exact htaken (hoverload.1 hanswers).2

/-- A macro that may be called with a block and without. -/
theorem latest_and_resolved_each :
    let m : MacroSpec := ⟨"each", [.required "x", .block "blk" true], ⟨Span.zero, .nil⟩⟩
    let loaded : LoadedUnit := .named "Kit$Extension1"
    let table := (Typer.withMacro m loaded.name loaded (.ofProgram "Kit" none true)).macros
    let full : MacroEntry := ⟨"each", ⟨[.required, .block]⟩, .full, loaded⟩
    let overload : MacroEntry := ⟨"each", ⟨[.required]⟩, .blockless, loaded⟩
    m.hasOptionalBlock = true ∧ (∀ k ∈ m.signature.params.dropLast, k ≠ .block) ∧
    (∀ e ∈ table.entries, e.name = "each" → e = full ∨ e = overload) ∧
    table.resolve "each" 1 true = some full ∧ table.resolve "each" 1 false = some overload ∧
    table.resolve "each" 2 false = none := by
  intro m loaded table full overload
  have hoptional : m.hasOptionalBlock = true := rfl
  have hlast : ∀ k ∈ m.signature.params.dropLast, k ≠ .block := by decide
  have hentries : table.entries = [full, overload] := rfl
  have honly : ∀ e ∈ table.entries, e.name = "each" → e = full ∨ e = overload := by
    intro e he _
    rw [hentries] at he
    simpa using he
  obtain ⟨-, -, hregistered⟩ := latest_and_resolved
  have hresolve := (hregistered m loaded.name loaded (.ofProgram "Kit" none true) hoptional hlast).2.2
  exact ⟨hoptional, hlast, honly, (hresolve honly 1 true).2.2, (hresolve honly 1 false).2.2,
    (hresolve honly 2 false).2.2⟩

end MacroTable

end Quasiquote
