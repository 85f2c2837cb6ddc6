import Quasiquote.Proofs.Session.Confined
import Quasiquote.Proofs.Session.Progress

namespace Quasiquote

/-!
# Forward uses — macros that are called ahead of their definitions

The definitions of a body are registered before the body is typed, and a call builds the definition
that it needs.  So where one macro alone has a name, a search that looks at its owner finds the same
entry before the macro is built as after.  A search that comes across the owner on its way up only
does not build anything: it finds the entry if the macro has been built already.

* `Work.Lacks`, `Work.Passes` — a session before a macro is met, and the sessions in which typing
  may look for the macro from there on;
* `Typer.findMacro_of_settled` — a search where nothing waits;
* `Typer.orderly_search` — a search that looks at the owner of the macro;
* `Work.Passes.search_answers` — what a search for the macro finds.
-/

namespace Work

variable {o x : String} {m : MacroSpec} {k₀ k : Work}

/-! ### Sessions -/

/-- Whether no definition, no entry and no descriptor has a name, and the descriptor of a type is
    found under the name of the type only. -/
structure Lacks (o x : String) (k : Work) : Prop where
  definitions : ∀ d ∈ k.session.definitions, d.spec.name ≠ x
  entries : ∀ e ∈ k.session.types.entries, e.name ≠ x
  files : k.NoRecord o x

theorem Lacks.confined (h : k.Lacks o m.name) : k.Confined o m := by
  have hnone (p : String) : k.session.types.named p m.name = [] := by
    refine List.filter_eq_nil_iff.2 fun e he => ?_
    obtain ⟨t, ht, he⟩ := List.mem_flatMap.1 he
    simpa using h.entries e (TypeRegistry.mem_entries_of_get? (Option.mem_toList.1 ht) he)
  refine ⟨fun p _ => hnone p, .inl (hnone o), fun id d hd hname => ?_, h.files⟩
  exact absurd hname (h.definitions d (List.mem_of_getElem? hd))

/-- The sessions in which typing may look for a macro, from `k₀` on. -/
inductive Passes (k₀ : Work) : Work → Prop
  | start : Passes k₀ k₀
  -- typing goes on step by step
  | meet {k : Work} (h : Passes k₀ k) (spec : MacroSpec) (owner : String) (span : Span) :
    Passes k₀ { k with session := { k.session with definitions :=
      k.session.definitions ++ [{ spec, owner, span, source := k.session.source }] } }
  | declare {k : Work} (h : Passes k₀ k) (owner : String) (method : Method) :
    Passes k₀ { k with session := { k.session with
      types := k.session.types.modify owner (·.define method) } }
  | importType {k : Work} (h : Passes k₀ k) (name : String)
      (hnew : k.session.types.contains name = false) :
    Passes k₀ ((SessionM.importType name).run k).2
  | openType {k : Work} (h : Passes k₀ k) (name : String) (superclass : Option String)
      (persistent : Bool) :
    Passes k₀ { k with session := { k.session with
      types := k.session.types.openType name superclass persistent } }
  | expand {k : Work} (h : Passes k₀ k) (unit : LoadedUnit) (call : Node) :
    Passes k₀ ⟨{ k.session with scopes := (k.expanded unit call).scopes },
      { k.world with printed := k.world.printed ++ (k.expanded unit call).output }⟩
  | record {k : Work} (h : Passes k₀ k) (e : ExpansionStep)
      (he : e.depth < Typer.expansionLimit) :
    Passes k₀ { k with session := { k.session with expansions := k.session.expansions ++ [e] } }
  /-- The unit of a definition is typed next. -/
  | begin {k : Work} (h : Passes k₀ k) {id : Nat} {d : MacroDefinition}
      (hd : k.session.definition? id = some d) (hs : d.state = .unresolved) :
    Passes k₀ (((k.noting id .extending).naming id d.owner).noting id .compiling)
  /-- A definition has been built, or has failed. -/
  | build {t : Typing} (h : Passes k₀ t.work) (n id : Nat) :
    Passes k₀ (TypeM.last (Typer.require n id t)).work

theorem passes_preserved (k₀ : Work) : Typer.Preserved k₀.Passes where
  meet h := h.meet
  declare h := h.declare
  importType h := h.importType
  openType h := h.openType
  expand h := h.expand
  record h := h.record

/-- What typing and builds keep is kept where typing may look for a macro. -/
theorem Passes.keeps {I : Work → Prop} {L : MacroDefinition → String → Work → Prop}
    (h : k₀.Passes k) (hinvariant : Typer.Invariant I L) (h₀ : I k₀) : I k := by
  induction h with
  | start => exact h₀
  | meet _ spec owner span ih => exact hinvariant.meet ih spec owner span
  | declare _ owner method ih => exact hinvariant.declare ih owner method
  | importType _ name hnew ih => exact hinvariant.importType ih name hnew
  | openType _ name superclass persistent ih => exact hinvariant.openType ih name superclass persistent
  | expand _ unit call ih => exact hinvariant.expand ih unit call
  | record _ e he ih => exact hinvariant.record ih e he
  | begin _ hd hs ih => exact hinvariant.note (hinvariant.begin ih hd hs) (buildOf_begin hd) rfl
  | @build t _ n id ih => exact hinvariant.preserves_require n id t ih

/-- Macros stay where they belong. -/
theorem Passes.orderly (h : k₀.Passes k) (h₀ : k₀.Orderly o m) : k.Orderly o m :=
  h.keeps (Typer.orderly_invariant o m) h₀

/-! ### Searches -/

/-- Where nothing waits, the macro is listed. -/
theorem Confined.exists_entries (h : k.Confined o m) (honly : k.Only o m)
    (hmet : ∃ id d, k.session.definition? id = some d ∧ d.spec.name = m.name)
    (hpending : k.session.pending o m.name = []) :
    ∃ u, k.Begun m.name u ∧ k.session.types.named o m.name = m.entries u := by
  obtain ⟨id, d, hd, hname⟩ := hmet
  have hresolved : d.state = .resolved := by
    by_contra hne
    have hmem : (id, d.state) ∈ k.session.pending o m.name :=
      Session.mem_pending.2 ⟨d, hd, (honly id d hd hname).1, hname, rfl, hne⟩
    rw [hpending] at hmem
    cases hmem
  exact h.entries.resolve_left (h.listed id d hd hname hresolved)

end Work

namespace Typer

open TypeM Work

variable {o x : String} {m : MacroSpec} {env : Typer} {argc : Nat} {block : Bool} {s : Span}
  {owners : List String} {t t' : Typing} {r : Except Diagnostic (Option MacroEntry)}

/-- Where no definition of a name waits, a search for it changes nothing. -/
theorem findMacro_of_settled (h : ∀ p ∈ owners, t.work.session.pending p x = []) :
    env.findMacro x argc block s owners t =
      .ok (.ok (owners.findSome? (t.work.session.types.lookupMacro · x argc block)), t) := by
  induction owners with
  | nil => rfl
  | cons p owners ih =>
    rw [findMacro_cons_of_settled (h p List.mem_cons_self), List.findSome?_cons]
    cases t.work.session.types.lookupMacro p x argc block with
    | none => exact ih fun q hq => h q (List.mem_cons_of_mem p hq)
    | some e => rfl

/-- A single definition that nobody has begun to build is built. -/
theorem buildPending_unresolved {id : Nat} {r : Except Diagnostic Unit}
    (h : env.build id t = .ok (r, t')) :
    env.buildPending [(id, .unresolved)] t = .ok (true, t') := by
  show (env.build id >>= fun _ => env.buildPending []) t = _
  rw [TypeM.bind_apply, h]
  rfl

/-- Where all that waited has been built, the search goes on as if it had been before. -/
theorem findMacro_of_built {t₁ : Typing}
    (h : env.buildPending (t.work.session.pending o x) t = .ok (true, t₁))
    (hpending : t₁.work.session.pending o x = []) :
    env.findMacro x argc block s (o :: owners) t = env.findMacro x argc block s (o :: owners) t₁ := by
  rw [findMacro_cons_of_settled hpending, findMacro]
  simp only [TypeM.bind_apply, TypeM.session_apply, h, hpending, if_true, List.any_nil,
    Bool.false_eq_true, if_false]
  cases t₁.work.session.types.lookupMacro o x argc block <;> rfl

/-- Not all can be tried if one of them is being built. -/
theorem exists_building {ps : List (Nat × BuildState)} (h : env.buildPending ps t = .ok (false, t')) :
    ∃ p ∈ ps, p.2.isBuilding = true := by
  induction ps generalizing t with
  | nil => cases h
  | cons p ps ih =>
    obtain ⟨id, state⟩ := p
    rw [buildPending] at h
    by_cases hbuilding : state.isBuilding = true
    · exact ⟨_, List.mem_cons_self, hbuilding⟩
    · rw [if_neg hbuilding] at h
      refine (?_ : ∃ p ∈ ps, p.2.isBuilding = true).imp fun p hp =>
        ⟨List.mem_cons_of_mem _ hp.1, hp.2⟩
      by_cases hopen : state = .unresolved
      · rw [if_pos hopen, TypeM.bind_apply] at h
        cases hb : env.build id t with
        | error s =>
          rw [hb] at h
          cases h
        | ok q =>
          rw [hb] at h
          exact ih h
      · rw [if_neg hopen] at h
        exact ih h

/-- What is being built, still is once others could be tried. -/
theorem pending_ne_nil_of_building (hsettles : SettlingBuilds env.build)
    (hruns : ∀ id, Runs (env.build id))
    (h : env.buildPending (t.work.session.pending o x) t = .ok (false, t')) :
    t'.work.session.pending o x ≠ [] := by
  obtain ⟨⟨id, state⟩, hp, hbuilding⟩ := exists_building h
  obtain ⟨d, hd, howner, hname, hs, hne⟩ := Session.mem_pending.1 hp
  obtain ⟨d', hd', hspec, howner'⟩ := ((runs_buildPending hruns _).run h).definition_stays hd
  have hsettled := settling_buildPending hsettles _ t _ t' h
  have hsame : d'.state = state := by
    have hstates := hsettled.states id not_false
    rw [stateOf, stateOf, hd, hd', Option.map_some, Option.map_some, hs] at hstates
    rcases hstates with hsame | ⟨hopen | hopen, -⟩
    · exact Option.some.inj hsame
    · cases hopen
    · cases hopen
      cases hbuilding
  exact List.ne_nil_of_mem (Session.mem_pending.2
    ⟨d', hd', howner'.trans howner, hspec ▸ hname, hsame, hne⟩)

/-- Where the macro is built, a search that comes across its owner finds it. -/
theorem settled_search {n : Nat} (hbuild : env.build = require n) (ht : t.work.Orderly o m)
    (hmet : ∃ id d, t.work.session.definition? id = some d ∧ d.spec.name = m.name)
    (hpending : t.work.session.pending o m.name = [])
    (hseen : o ∈ owners ∨ ∃ p ∈ owners, t.work.session.types.Sees p o)
    (hrun : env.findMacro m.name argc block s owners t = .ok (r, t')) (honly : t'.work.Only o m) :
    ∃ u, t'.work.Begun m.name u ∧ r = .ok ((m.form? argc block).map (m.entry u)) := by
  have hruns : ∀ id, Runs (env.build id) := hbuild ▸ runs_require n
  have hhere := honly.of_run ((runs_findMacro hruns m.name argc block s _).run hrun)
  have hc := ht.confined hhere
  obtain ⟨u, hu, hentries⟩ := hc.exists_entries hhere hmet hpending
  have hseen : ∃ p ∈ owners, t.work.session.types.Sees p o := by
    refine hseen.elim (fun howner => ⟨o, howner, TypeRegistry.sees_self (x := m.name) ?_⟩) id
    rw [hentries]
    exact m.entries_ne_nil u
  obtain ⟨p, hp, hsees⟩ := hseen
  rw [findMacro_of_settled fun q _ => ?_, hc.elsewhere.findSome?_of_sees argc block hp hsees,
    hentries, MacroSpec.find?_entries] at hrun
  · cases hrun
    exact ⟨u, hu, rfl⟩
  · by_cases hq : q = o
    · rw [hq, hpending]
    · exact hhere.pending hq

/-- A search that looks at the owner of the macro builds it if need be, and finds it. -/
theorem orderly_search {n : Nat} (hbuild : env.build = require n) (ht : t.work.Orderly o m)
    (hmet : ∃ id d, t.work.session.definition? id = some d ∧ d.spec.name = m.name)
    (howner : o ∈ owners) (hrun : env.findMacro m.name argc block s owners t = .ok (r, t'))
    (honly : t'.work.Only o m) (hresolved : t'.work.session.pending o m.name = []) :
    ∃ u, t'.work.Begun m.name u ∧ r = .ok ((m.form? argc block).map (m.entry u)) := by
  have hruns : ∀ id, Runs (env.build id) := hbuild ▸ runs_require n
  have hsettles : SettlingBuilds env.build := hbuild ▸ settling_require n
  have hkeeps : ∀ id, Preserves (Orderly o m) (env.build id) :=
    hbuild ▸ (orderly_invariant o m).preserves_require n
  induction owners generalizing t with
  | nil => cases howner
  | cons p owners ih =>
    by_cases hp : p = o
    · subst hp
      have hunfold := hrun
      rw [findMacro] at hunfold
      simp only [TypeM.bind_apply, TypeM.session_apply] at hunfold
      have hkept := preserves_buildPending (orderly_preserved p m) hkeeps
        (t.work.session.pending p m.name) t ht
      cases hpending : env.buildPending (t.work.session.pending p m.name) t with
      | error s =>
        rw [hpending] at hunfold
        cases hunfold
      | ok q =>
        obtain ⟨tried, t₁⟩ := q
        rw [hpending] at hunfold hkept
        cases tried with
        | false =>
          cases hunfold
          exact absurd hresolved (pending_ne_nil_of_building hsettles hruns hpending)
        | true =>
          simp only [if_true, TypeM.bind_apply, TypeM.session_apply] at hunfold
          cases hwaiting : t₁.work.session.pending p m.name with
          | nil =>
            rw [findMacro_of_built hpending hwaiting] at hrun
            obtain ⟨id, d, hd, hname⟩ := hmet
            obtain ⟨d₁, hd₁, hspec, -⟩ :=
              ((runs_buildPending hruns _).run hpending).definition_stays hd
            exact settled_search hbuild hkept ⟨id, d₁, hd₁, hspec ▸ hname⟩ hwaiting (.inl howner)
              hrun honly
          | cons q _ =>
            -- something has failed, and is still there at the end
            have hq : q ∈ t₁.work.session.pending p m.name := hwaiting ▸ List.mem_cons_self
            have hany : (t₁.work.session.pending p m.name).any (·.2 == .failed) = true := by
              refine List.any_eq_true.2 ⟨q, hq, ?_⟩
              rw [failed_of_mem_pending hsettles hruns hpending hq]
              rfl
            have hend : t' = t₁ := by
              rw [if_pos hany] at hunfold
              cases hlookup : t₁.work.session.types.lookupMacro p m.name argc block with
              | none =>
                rw [hlookup] at hunfold
                cases hunfold
                rfl
              | some e =>
                rw [hlookup] at hunfold
                cases hunfold
                rfl
            rw [hend] at hresolved
            exact absurd hresolved (List.ne_nil_of_mem hq)
    · have hhere := honly.of_run ((runs_findMacro hruns m.name argc block s _).run hrun)
      have hc := ht.confined hhere
      rw [findMacro_cons_of_settled (hhere.pending hp)] at hrun
      cases hlookup : t.work.session.types.lookupMacro p m.name argc block with
      | none =>
        rw [hlookup] at hrun
        exact ih ht hmet ((List.mem_cons.1 howner).resolve_left (Ne.symm hp)) hrun
      | some e =>
        rw [hlookup] at hrun
        cases hrun
        obtain ⟨u, hu, hentries⟩ := hc.exists_entries honly hmet hresolved
        refine ⟨u, hu, congrArg Except.ok ?_⟩
        have hcases := hc.elsewhere.lookupMacro_cases argc block p
        rw [hlookup, hentries, MacroSpec.find?_entries] at hcases
        exact hcases.resolve_left (by simp)

end Typer

namespace Work

/-! ### Before and after -/

variable {o : String} {m : MacroSpec} {k₀ : Work} {t t' : Typing} {env : Typer} {n argc : Nat}
  {block : Bool} {s : Span} {owners : List String} {r : Except Diagnostic (Option MacroEntry)}

/-- Forward uses.  If one macro alone has a name, then wherever typing looks for it, on its owner
    among others, it finds the entry of the form that the call means: whether the macro has been
    built by then makes no difference, provided that its build succeeds.  Once the macro has been
    built, a search that comes across the owner from another type finds it too. -/
theorem Passes.search_answers (h₀ : k₀.Reachable) (hlacks : k₀.Lacks o m.name)
    (ht : k₀.Passes t.work)
    (hmet : ∃ id d, t.work.session.definition? id = some d ∧ d.spec.name = m.name)
    (hbuild : env.build = Typer.require n)
    (hrun : env.findMacro m.name argc block s owners t = .ok (r, t'))
    (honly : t'.work.Only o m) (hresolved : t'.work.session.pending o m.name = [])
    (hseen : o ∈ owners ∨ t.work.session.pending o m.name = [] ∧
      ∃ p ∈ owners, t.work.session.types.Sees p o) :
    ∃ u, (∃ d ∈ t'.work.session.definitions, d.owner = o ∧ d.spec = m ∧ d.unit = some u.name) ∧
      r = .ok ((m.form? argc block).map (m.entry u)) := by
  have horderly := ht.orderly (m := m) ⟨h₀, fun _ => hlacks.confined⟩
  have hfound : ∃ u, t'.work.Begun m.name u ∧ r = .ok ((m.form? argc block).map (m.entry u)) := by
    rcases hseen with howner | ⟨hpending, hseen⟩
    · exact Typer.orderly_search hbuild horderly hmet howner hrun honly hresolved
    · exact Typer.settled_search hbuild horderly hmet hpending (.inr hseen) hrun honly
  obtain ⟨u, ⟨id, d, hd, hname, -, hunit⟩, hr⟩ := hfound
  obtain ⟨howner, hspec⟩ := honly id d hd hname
  exact ⟨u, ⟨d, List.mem_of_getElem? hd, howner, hspec, hunit⟩, hr⟩

/-- A macro of scripts that stands for a number. -/
def constant : MacroDefinition where
  spec := ⟨"one", [], ⟨.zero, .int 1⟩⟩
  owner := "Script"
  span := .zero
  source := Diagnostic.fallback

/-- The class that it is compiled as. -/
def constantImage : UnitImage where
  name := "kiln.macros.Script$Extension1"
  superclass := some extensionType
  methods := [
    ⟨"initialize", ["mirah", "call"], ⟨.zero, .body [
      Extension.keep .zero "mirah", Extension.keep .zero "call"]⟩⟩,
    ⟨"expand", [], ⟨.zero, .body [⟨.zero, .invoke "_expand" [] none⟩]⟩⟩,
    ⟨"_expand", [], ⟨.zero, .int 1⟩⟩]

theorem storable_constantImage : constantImage.Storable := by
  intro m hm
  simp only [constantImage, List.mem_cons, List.not_mem_nil, or_false] at hm
  rcases hm with rfl | rfl | rfl
  all_goals
    simp [Node.Storable, Form.Storable, Extension.keep, Span.Fits, Word.fits_iff, Word.bound]
    decide

/-- The macro can be built where it has just been met. -/
theorem exists_require_constant {t : Typing}
    (ht : t = { work := meeting ⟨Session.start {} (.own {}), {}⟩ [constant] }) :
    ∃ t', Typer.require 1 0 t = .ok (.ok (), t') ∧
      ∃ d, t'.work.session.definitions = [d] ∧ d.spec = constant.spec ∧ d.owner = "Script" ∧
        d.state = .resolved := by
  have hd : t.work.session.definition? 0 = some constant := by rw [ht]; rfl
  obtain ⟨t', s, f, -, hbuilt, ⟨d, hs, hspec, howner⟩, -, hmodified, hf⟩ :=
    Typer.exists_require_of_prepared constantImage
      (fun s => ∃ d, s.definitions = [d] ∧ d.spec = constant.spec ∧ d.owner = "Script") hd rfl
      (by subst ht; exact ⟨rfl, rfl, rfl, rfl, rfl, _, rfl, rfl, rfl⟩) storable_constantImage
      (by decide)
  obtain ⟨hresolved, hfspec, hfowner⟩ := hf d
  rw [hs] at hmodified
  exact ⟨t', hbuilt, f d, hmodified, hfspec.trans hspec, hfowner.trans howner, hresolved⟩

/-- A call that stands in a class ahead of the definition. -/
theorem Passes.search_answers_constant :
    let k₀ : Work := ⟨Session.start {} (.own {}), {}⟩
    let t : Typing := { work := k₀.meeting [constant] }
    k₀.Reachable ∧ k₀.Lacks "Script" "one" ∧ k₀.Passes t.work ∧
    t.work.session.pending "Script" "one" = [(0, .unresolved)] ∧
    ∃ u t', (Typer.outermost (Typer.require 1)).findMacro "one" 0 false .zero ["Kiln", "Script"] t =
      .ok (.ok (some ⟨"one", ⟨[]⟩, .full, u⟩), t') := by
  intro k₀ t
  have hreachable : k₀.Reachable := .start {} (.own {}) _ {} Namespace.keyed_empty fun _ h => by
    cases h
    exact Namespace.keyed_empty
  have hentries : k₀.session.types.entries = [] := by decide +kernel
  have hlacks : k₀.Lacks "Script" "one" := by
    refine ⟨fun d hd => absurd hd List.not_mem_nil, fun e he => ?_, fun name d hd => ?_⟩
    · rw [hentries] at he
      cases he
    · cases hd
  have hpasses : k₀.Passes t.work := Passes.start.meet constant.spec "Script" .zero
  have hmet : t.work.session.definition? 0 = some constant := rfl
  have hwaiting : t.work.session.pending "Script" "one" = [(0, .unresolved)] := rfl
  have hhidden : t.work.session.types.lookupMacro "Kiln" "one" 0 false = none := by decide +kernel
  have helsewhere : t.work.session.pending "Kiln" "one" = [] := rfl
  obtain ⟨t', hbuilt, d, hdefinitions, hspec, howner, hresolved⟩ := exists_require_constant (t := t) rfl
  clear_value t k₀
  let env := Typer.outermost (Typer.require 1)
  have hbuild : env.build = Typer.require 1 := rfl
  have hpending : t'.work.session.pending "Script" "one" = [] := by
    simp [Session.pending, hdefinitions, hresolved]
  have honly : t'.work.Only "Script" constant.spec := by
    intro id d' hd' _
    have hmem : d' ∈ [d] := hdefinitions ▸ List.mem_of_getElem? hd'
    rw [List.mem_singleton.1 hmem]
    exact ⟨howner, hspec⟩
  refine ⟨hreachable, hlacks, hpasses, hwaiting, ?_⟩
  show ∃ u t', env.findMacro "one" 0 false .zero ["Kiln", "Script"] t = _
  clear_value env
  have hrun : env.findMacro "one" 0 false .zero ["Kiln", "Script"] t =
      .ok (.ok (["Script"].findSome? (t'.work.session.types.lookupMacro · "one" 0 false)), t') := by
    have htried : env.buildPending (t.work.session.pending "Script" "one") t = .ok (true, t') := by
      rw [hwaiting]
      exact Typer.buildPending_unresolved (by rw [hbuild, hbuilt])
    rw [Typer.findMacro_cons_of_settled helsewhere, hhidden]
    dsimp only
    rw [Typer.findMacro_of_built htried hpending, Typer.findMacro_of_settled]
    intro p hp
    rw [List.mem_singleton.1 hp, hpending]
  obtain ⟨u, -, hr⟩ := search_answers (m := constant.spec) hreachable hlacks hpasses
    ⟨0, constant, hmet, rfl⟩ hbuild hrun honly hpending (.inl (by simp))
  rw [hr] at hrun
  exact ⟨u, t', hrun⟩

end Work

end Quasiquote
