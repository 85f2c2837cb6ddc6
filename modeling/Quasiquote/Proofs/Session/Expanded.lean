import Quasiquote.Proofs.Macro.Inline
import Quasiquote.Proofs.Program
import Quasiquote.Proofs.Session.Resolved
import Quasiquote.Proofs.Typing.Expanded

namespace Quasiquote

/-!
# Compilations without errors — what is finished

A compilation that reports nothing has expanded the whole program and has built every macro
that it met.  Markers are the exception: one that an earlier compilation has reported may have
become part of a unit, and comes back in an expansion of it.

* `Work.Idle.compile_expands` — the program and the definitions of such a compilation.
-/

namespace Work

/-- A compilation that ends with a result has typed what inline expansion makes of its text. -/
theorem compileWithin_ok {k k' : Work} {nesting : Nat} {source text : String} {c : Compilation}
    (hrun : k.compileWithin nesting source text = .ok (.ok c, k')) :
    ∃ parsed type t, Program.parse source text = .ok parsed ∧
      Typer.inferWithin nesting (.script k.session.settings.scriptType)
        (parsed.expandInlineAll (k.enter source).session.inlineEnv).1 { work := k.enter source } =
          .ok ((c.program, type), t) ∧
      c.errors = (parsed.expandInlineAll (k.enter source).session.inlineEnv).2 ++ t.errors ∧
      c.expansions = t.work.session.expansions.drop k.session.expansions.length ∧
      k'.session.definitions = t.work.session.definitions := by
  cases hparse : Program.parse source text with
  | error d =>
    rw [compileWithin_of_error k nesting hparse] at hrun
    cases hrun
  | ok parsed =>
    rw [compileWithin_of_parse nesting hparse] at hrun
    refine ⟨parsed, ?_⟩
    revert hrun
    generalize hinfer : Typer.inferWithin nesting _ _ _ = r
    intro hrun
    rcases r with s | ⟨⟨program, type⟩, t⟩
    · cases hrun
    · let markers := (parsed.expandInlineAll (k.enter source).session.inlineEnv).2
      let c₀ : Compilation := {
        program
        errors := markers ++ t.errors
        warnings := t.work.session.warnings.drop k.session.warnings.length
        expansions := t.work.session.expansions.drop k.session.expansions.length }
      have hfinish : t.work.finish c₀ = (.ok c, k') := Except.ok.inj hrun
      obtain ⟨⟨files, hfiles⟩, hresult⟩ := t.work.finish_cases c₀
      rw [hfinish] at hfiles hresult
      have hc : c = c₀ := by
        rcases hresult with hok | ⟨d, hd⟩
        · exact Except.ok.inj hok
        · cases hd
      have hk' : k'.session.definitions = t.work.session.definitions := by
        rw [show k' = _ from hfiles]
      subst hc
      exact ⟨type, t, rfl, hinfer, rfl, rfl, hk'⟩

/-- **Theorem.** A compilation that reports nothing has nothing left to do: outside quoted bodies
    its program holds no macro definition, no hole and no declaration of a block, and no marker of
    a failure either unless an expansion shows one; and every definition that it has met is
    resolved. -/
theorem Idle.compile_expands {k k' : Work} (h : k.Idle) {nesting : Nat} {source text : String}
    {c : Compilation} (hrun : k.compileWithin nesting source text = .ok (.ok c, k'))
    (herrors : c.errors = []) :
    c.program.MayLeave true ∧
    ((∀ e ∈ c.expansions, ¬ ShowsMarker e.expansion) → c.program.MayLeave false) ∧
    ∀ id d, k.session.definitions.length ≤ id → k'.session.definition? id = some d →
      d.state = .resolved := by
  obtain ⟨parsed, type, t, hparse, hinfer, herr, hexpansions, hdefinitions⟩ := compileWithin_ok hrun
  obtain ⟨hmarkers, hnone⟩ := List.append_eq_nil_iff.1 (herr.symm.trans herrors)
  -- the tree that is typed holds no marker
  have htree : (parsed.expandInlineAll (k.enter source).session.inlineEnv).1.MarkerFree :=
    Node.markerFree_expandInlineAll _ (Program.markerFree_of_parse hparse) hmarkers
  have hleaves (markers : Bool)
      (hclean : markers = false → ∀ e ∈ c.expansions, ¬ ShowsMarker e.expansion) :
      c.program.MayLeave markers := by
    obtain ⟨errors, expansions, hnew, hmore, hyields⟩ :=
      Typer.yields_inferWithin markers nesting _ _ _ _ _ hinfer
    have hsame : c.expansions = expansions := by
      rw [hexpansions, hmore]
      exact List.drop_left
    rw [hnone] at hnew
    refine hyields (by simpa using hnew.symm) (hsame ▸ hclean) ?_
    exact Node.mayEnter_iff.2 fun _ => htree
  refine ⟨hleaves true fun h => (by cases h), fun hclean => hleaves false fun _ => hclean, ?_⟩
  intro id d hid hd
  have hrest : (k.enter source).AtRest := ⟨h.atRest.scopes, h.atRest.sites, h.atRest.definitions⟩
  refine AtRest.resolved_of_inferWithin (t := { work := k.enter source }) hrest hinfer hnone hid ?_
  rwa [Session.definition?, ← hdefinitions]

/-- A call of a macro of an earlier session is replaced, and nothing is left to do. -/
theorem compile_expands_imported :
    let one : LoadedUnit := ⟨"", ⟨"one", none, [⟨Extension.entryMethod, [], ⟨Span.zero, .int 1⟩⟩]⟩⟩
    let d : Descriptor := { name := "A", superclass := some rootType, macros := [⟨"m", ⟨[]⟩, "one"⟩] }
    let k : Work := ⟨Session.start { classpath := ["out"] } .shared,
      { files := ({} : Files).set ["out", "A.kdesc"] (.text d.encode)
        shared := NameMap.empty.insert "one" one }⟩
    ∃ c k', k.compileWithin 0 "main" "A.m()" = .ok (.ok c, k') ∧ c.errors = [] ∧
      c.expansions.map ExpansionStep.expansion = ["1"] ∧ c.program.MayLeave false := by
  intro one d k
  have hidle : k.Idle := .start _ _ _ _
  have hview : (k.compileWithin 0 "main" "A.m()").toOption.map (fun p => p.1.toOption.map fun c =>
      (c.errors.length, c.expansions.map ExpansionStep.expansion)) = some (some (0, ["1"])) := by
    decide +kernel
  clear_value k
  cases hrun : k.compileWithin 0 "main" "A.m()" with
  | error k' =>
    rw [hrun] at hview
    cases hview
  | ok p =>
    obtain ⟨e | c, k'⟩ := p
    · rw [hrun] at hview
      cases hview
    · rw [hrun] at hview
      have hview : (c.errors.length, c.expansions.map ExpansionStep.expansion) = (0, ["1"]) :=
        Option.some.inj (Option.some.inj hview)
      obtain ⟨hlength, htexts⟩ := Prod.mk.inj hview
      have herrors : c.errors = [] := List.length_eq_zero_iff.1 hlength
      refine ⟨c, k', rfl, herrors, htexts, (hidle.compile_expands hrun herrors).2.1 fun e he => ?_⟩
      have htext : e.expansion ∈ ["1"] := htexts ▸ List.mem_map_of_mem he
      rw [List.mem_singleton.1 htext]
      decide

end Work

end Quasiquote
