import Quasiquote.Proofs.Session.Assertions
import Quasiquote.Proofs.Session.Cycles
import Quasiquote.Proofs.Session.Reachable
import Quasiquote.Proofs.Typing.Errors

namespace Quasiquote

/-!
# Clashes — macros with the name of the method that holds bodies

The entry method of every unit calls the method that holds the authored body by its name, and
like any other call this one looks for a macro first.  So a definition of that name on the type
of scripts, which every unit searches, is needed by every build, its own included: no macro is
ever built again.

* `Work.Reserved` — no macro has the name;
* `Work.Clashes` — there is a definition of the name on the type of scripts, and no definition
  from some number on is resolved;
* `Typer.preserves_clashes` — no build changes that, for no build succeeds;
* `Work.compile_clashes` — what a source with such a definition leaves behind.
-/

open Extension (bodyMethod)

namespace Work

/-- Whether no macro has the name of the method that holds bodies, or can get it from a file, and
    whether the name stands for itself. -/
structure Reserved (k : Work) : Prop where
  entries : ∀ e ∈ k.session.types.entries, e.name ≠ bodyMethod
  files : ∀ name d, Descriptor.find k.world.files name k.session.settings.classpath = .ok (some d) →
    ∀ r ∈ d.macros, r.name ≠ bodyMethod
  inline : k.session.inline.get? bodyMethod = none

/-- Whether the definitions `ds` have been met from number `first` on, one of which has the name
    of the method that holds bodies and belongs to the type of scripts, and no definition of that
    name or from that number on is resolved. -/
structure Clashes (scriptType : String) (first : Nat) (ds : List MacroDefinition) (k : Work) :
    Prop where
  reserved : k.Reserved
  script : k.session.types.scriptType = scriptType
  clash : ∃ d ∈ ds, d.owner = scriptType ∧ d.spec.name = bodyMethod
  met : ∀ i d, ds[i]? = some d → ∃ d', k.session.definition? (first + i) = some d' ∧
    d'.owner = d.owner ∧ d'.spec = d.spec
  unresolved : ∀ id d, k.session.definition? id = some d →
    first ≤ id ∨ d.spec.name = bodyMethod → d.state ≠ .resolved

namespace Clashes

variable {scriptType : String} {first : Nat} {ds : List MacroDefinition} {k k' : Work}
  (h : k.Clashes scriptType first ds)
include h

/-- Changes of types that bring no macro of the name. -/
theorem of_types {types : TypeRegistry} (hscript : types.scriptType = k.session.types.scriptType)
    (hentries : ∀ e ∈ types.entries, e ∈ k.session.types.entries ∨ e.name ≠ bodyMethod) :
    Clashes scriptType first ds ⟨{ k.session with types }, k.world⟩ :=
  { h with
    reserved := { h.reserved with
      entries := fun e he => (hentries e he).elim (h.reserved.entries e) id }
    script := hscript.trans h.script }

theorem withUnits (units : Namespace) : (k.withUnits units).Clashes scriptType first ds := by
  obtain ⟨_, _, hk⟩ := k.withUnits_eq units
  rw [hk]
  exact { h with reserved := { h.reserved with } }

/-- A change of a definition that does not resolve it. -/
theorem modify (id : Nat) {f : MacroDefinition → MacroDefinition}
    (hf : ∀ d, (f d).owner = d.owner ∧ (f d).spec = d.spec)
    (hstate : ∀ d, (f d).state = d.state ∨ (f d).state ≠ .resolved) :
    Clashes scriptType first ds { k with session := k.session.modifyDefinition id f } := by
  have hget (other : Nat) : (k.session.modifyDefinition id f).definition? other =
      (k.session.definition? other).map fun d => if id = other then f d else d := by
    simp only [Session.modifyDefinition, Session.definition?, List.getElem?_modify]
    by_cases hother : id = other <;> simp [hother]
  refine { h with reserved := { h.reserved with }, met := fun i d hd => ?_, unresolved := ?_ }
  · obtain ⟨d', hd', howner, hspec⟩ := h.met i d hd
    refine ⟨_, by rw [hget, hd', Option.map_some], ?_⟩
    split
    · rw [(hf d').1, (hf d').2]
      exact ⟨howner, hspec⟩
    · exact ⟨howner, hspec⟩
  · intro other d' hd' hwhich
    rw [hget] at hd'
    obtain ⟨d, hd, rfl⟩ := Option.map_eq_some_iff.1 hd'
    have hbefore := h.unresolved other d hd
    by_cases heq : id = other
    · rw [if_pos heq] at hwhich ⊢
      rw [(hf d).2] at hwhich
      exact (hstate d).elim (fun hsame => hsame.symm ▸ hbefore hwhich) fun hne => hne
    · rw [if_neg heq] at hwhich ⊢
      exact hbefore hwhich

theorem noting (id : Nat) {state : BuildState} (hstate : state ≠ .resolved) :
    (k.noting id state).Clashes scriptType first ds :=
  h.modify id (fun _ => ⟨rfl, rfl⟩) fun _ => .inr hstate

theorem naming (id : Nat) (owner : String) : (k.naming id owner).Clashes scriptType first ds :=
  have h := h.modify id (f := fun d => { d with unit := some (k.nextUnit owner) })
    (fun _ => ⟨rfl, rfl⟩) fun _ => .inl rfl
  { h with reserved := { h.reserved with } }

/-- Importing a type brings the macros of its descriptor. -/
theorem importType (name : String) :
    ((SessionM.importType name).run k).2.Clashes scriptType first ds := by
  rw [SessionM.importType_run]
  cases hfind : Descriptor.find k.world.files name k.session.settings.classpath with
  | error e => exact h
  | ok found =>
    cases found with
    | none => exact h
    | some d =>
      obtain ⟨units, hunits⟩ := SessionM.keeps_resolveAll d.macros k
      have hnames := SessionM.map_fst_resolveAll d.macros k
      revert hunits hnames
      dsimp only
      rcases (SessionM.resolveAll d.macros).run k with ⟨e | macros, k'⟩
      · rintro rfl -
        exact h.withUnits units
      · rintro rfl hnames
        refine (h.withUnits units).of_types rfl fun e he => ?_
        refine (TypeRegistry.mem_flatMap_insert he).symm.imp_right fun he => ?_
        obtain ⟨p, hp, hname, -⟩ := OwnerType.mem_entries_ofDescriptor he
        have hrecord : p.1 ∈ d.macros := hnames macros rfl ▸ List.mem_map_of_mem hp
        exact hname ▸ h.reserved.files name d hfind p.1 hrecord

end Clashes

/-- Typing changes nothing about it. -/
theorem clashes_preserved (scriptType : String) (first : Nat) (ds : List MacroDefinition) :
    Typer.Preserved (Clashes scriptType first ds) where
  meet {k} h spec owner span := by
    refine { h with reserved := { h.reserved with }, met := fun i d hd => ?_, unresolved := ?_ }
    · obtain ⟨d', hd', hsame⟩ := h.met i d hd
      refine ⟨d', ?_, hsame⟩
      exact (definition?_meeting_of_lt (List.getElem?_eq_some_iff.1 hd').1).trans hd'
    · intro id d hd hwhich
      rcases Nat.lt_or_ge id k.met with hlt | hge
      · exact h.unresolved id d (definition?_meeting_of_lt hlt ▸ hd) hwhich
      · rw [List.mem_singleton.1 (mem_of_definition?_meeting hge hd)]
        simp
  declare h owner m := h.of_types rfl fun e he => .inl (TypeRegistry.mem_entries_define he)
  importType h name _ := h.importType name
  openType h name superclass persistent := by
    refine h.of_types (TypeRegistry.scriptType_openType _ _ _ _) fun e he => .inl ?_
    exact TypeRegistry.mem_entries_openType he
  expand h unit call := { h with reserved := { h.reserved with } }
  record h e _ := { h with reserved := { h.reserved with } }

end Work

/-! ### The class of a unit -/

/-- The parts of a computation that succeeds. -/
theorem exists_of_bind {ε α β : Type} {x : Except ε α} {f : α → Except ε β} {b : β}
    (h : (x >>= f) = .ok b) : ∃ a, x = .ok a ∧ f a = .ok b := by
  cases x with
  | error e => cases h
  | ok a => exact ⟨a, rfl, h⟩

namespace Extension

open Node

variable {env : InlineEnv} {s : Span}

/-- A method stays one when inline macros are expanded. -/
theorem exists_of_methodDef {name : String} {ps : List Parameter} {returns : Option String}
    {body n : Node}
    (h : expandInlineM (m := Except Diagnostic) env throw false ⟨s, .methodDef name ps returns body⟩ =
      .ok n) :
    ∃ ps' body', n = ⟨s, .methodDef name ps' returns body'⟩ ∧
      expandInlineParamsM (m := Except Diagnostic) env throw false ps = .ok ps' ∧
      expandInlineM (m := Except Diagnostic) env throw false body = .ok body' := by
  rw [expandInlineM] at h
  obtain ⟨ps', hps, h⟩ := exists_of_bind h
  obtain ⟨body', hbody, h⟩ := exists_of_bind h
  cases h
  exact ⟨ps', body', rfl, hps, hbody⟩

/-- Where the name of the method that holds bodies stands for itself, the entry method calls the
    method, whatever inline macros there are. -/
theorem exists_of_entry (hmethod : env.macros.get? bodyMethod = none) {m : MacroSpec} {n : Node}
    (h : expandInlineM (m := Except Diagnostic) env throw false (entry m s) = .ok n) :
    ∃ args, n = ⟨s, .methodDef entryMethod [] (some "Node")
      ⟨s, .body [⟨s, .invoke bodyMethod args none⟩]⟩⟩ := by
  obtain ⟨ps', body', rfl, hps, hbody⟩ := exists_of_methodDef h
  cases hps
  rw [expandInlineM] at hbody
  obtain ⟨items, hitems, hbody⟩ := exists_of_bind hbody
  cases hbody
  rw [expandInlineListM] at hitems
  obtain ⟨call, hcall, hitems⟩ := exists_of_bind hitems
  cases hitems
  simp only [expandInlineM, Bool.false_eq_true, if_false, hmethod] at hcall
  obtain ⟨args, -, hcall⟩ := exists_of_bind hcall
  cases hcall
  exact ⟨args, rfl⟩

/-- What the class of a unit is like when inline macros have been expanded. -/
theorem exists_of_ofSpec (hmethod : env.macros.get? bodyMethod = none) {unit : String} {m : MacroSpec}
    {n : Node} (h : (ofSpec unit m s).expandInline env = .ok n) :
    ∃ first args last, n = ⟨s, .classDef unit (some extensionType) ⟨s, .body [first,
      ⟨s, .methodDef entryMethod [] (some "Node") ⟨s, .body [⟨s, .invoke bodyMethod args none⟩]⟩⟩,
      last]⟩⟩ ∧ first.spec? = none := by
  rw [ofSpec, expandInline, expandInlineM] at h
  obtain ⟨body, hbody, h⟩ := exists_of_bind h
  cases h
  rw [expandInlineM] at hbody
  obtain ⟨items, hitems, hbody⟩ := exists_of_bind hbody
  cases hbody
  simp only [expandInlineListM] at hitems
  obtain ⟨first, hfirst, hitems⟩ := exists_of_bind hitems
  obtain ⟨rest, hrest, hitems⟩ := exists_of_bind hitems
  cases hitems
  obtain ⟨called, hcalled, hrest⟩ := exists_of_bind hrest
  obtain ⟨rest', hrest', hrest⟩ := exists_of_bind hrest
  cases hrest
  obtain ⟨last, -, hrest'⟩ := exists_of_bind hrest'
  cases hrest'
  obtain ⟨args, rfl⟩ := exists_of_entry hmethod hcalled
  obtain ⟨ps, body, rfl, -, -⟩ := exists_of_methodDef hfirst
  exact ⟨_, args, last, rfl, rfl⟩

end Extension

namespace Typer

open TypeM Work

/-! ### Searches -/

theorem eq_failed_of_isFinal {state : BuildState} (h : state.isFinal = true)
    (hs : state ≠ .resolved) : state = .failed := by
  cases state <;> simp_all [BuildState.isFinal]

/-- A definition that is neither being built nor new is settled. -/
theorem final_of_settles {state : BuildState} {s s' : Option BuildState} (hs : s = some state)
    (hbuilding : ¬ state.isBuilding = true) (h : BuildState.Settles s s')
    (hne : s' ≠ some .unresolved) : ∃ final, s' = some final ∧ final.isFinal = true := by
  rcases h with rfl | ⟨-, rfl | rfl⟩
  · refine ⟨state, hs, ?_⟩
    rw [hs] at hne
    cases state <;> first | rfl | exact absurd rfl hne | exact absurd rfl hbuilding
  · exact ⟨_, rfl, rfl⟩
  · exact ⟨_, rfl, rfl⟩

/-- A definition that was waiting is settled once all that wait could be tried. -/
theorem final_buildPending {env : Typer} (hsettles : SettlingBuilds env.build) {k : Work}
    {ps : List (Nat × BuildState)} {t t' : Typing} (hk : k.Settles (fun _ => False) t.work)
    (hps : ∀ p ∈ ps, k.stateOf p.1 = some p.2) (h : env.buildPending ps t = .ok (true, t')) :
    t.work.Settles (fun _ => False) t'.work ∧
      ∀ p ∈ ps, ∃ state, t'.work.stateOf p.1 = some state ∧ state.isFinal = true := by
  induction ps generalizing t with
  | nil =>
    rw [buildPending] at h
    cases h
    exact ⟨.refl _, fun p hp => absurd hp List.not_mem_nil⟩
  | cons p ps ih =>
    obtain ⟨id, state⟩ := p
    have hstate : k.stateOf id = some state := hps _ List.mem_cons_self
    have hrest := fun p hp => hps p (List.mem_cons_of_mem _ hp)
    rw [buildPending] at h
    by_cases hbuilding : state.isBuilding = true
    · rw [if_pos hbuilding] at h
      cases h
    · rw [if_neg hbuilding] at h
      -- once this one has been tried, it is settled, and stays so
      have hlast {s : Typing} (hs : k.Settles (fun _ => False) s.work)
          (hne : s.work.stateOf id ≠ some .unresolved) (h : env.buildPending ps s = .ok (true, t')) :
          s.work.Settles (fun _ => False) t'.work ∧ ∀ p ∈ (id, state) :: ps,
            ∃ state, t'.work.stateOf p.1 = some state ∧ state.isFinal = true := by
        obtain ⟨hsettled, hall⟩ := ih hs hrest h
        refine ⟨hsettled, fun p hp => ?_⟩
        rcases List.mem_cons.1 hp with rfl | hp
        · obtain ⟨final, hfinal, hisFinal⟩ := final_of_settles hstate hbuilding (hs.states id not_false) hne
          refine ⟨final, ?_, hisFinal⟩
          rcases hsettled.states id not_false with hsame | ⟨hopen | hopen, -⟩
          · exact hsame.trans hfinal
          · rw [hfinal] at hopen
            cases hopen
          · exact absurd hopen hne
        · exact hall p hp
      by_cases hopen : state = .unresolved
      · rw [if_pos hopen, TypeM.bind_apply] at h
        cases hb : env.build id t with
        | error s =>
          rw [hb] at h
          cases h
        | ok p =>
          rw [hb] at h
          have hfirst := (hsettles id).1 t p.1 p.2 hb
          obtain ⟨hsettled, hall⟩ := hlast (hk.trans hfirst) ((hsettles id).2 t p.1 p.2 hb) h
          exact ⟨hfirst.trans hsettled, hall⟩
      · rw [if_neg hopen] at h
        have hne : k.stateOf id ≠ some .unresolved := by
          rw [hstate]
          exact fun heq => hopen (Option.some.inj heq)
        exact hlast hk ((hk.states id not_false).ne_unresolved hne) h

/-- Building pending definitions takes steps only. -/
theorem runs_buildPending {env : Typer} (hruns : ∀ id, Runs (env.build id))
    (ps : List (Nat × BuildState)) : Runs (env.buildPending ps) := by
  have hrel : running.Rel (env.buildPending ps) (env.buildPending ps) :=
    Walk.rel_buildPending hruns ps
  exact hrel

/-- Looking for a macro takes steps only. -/
theorem runs_findMacro {env : Typer} (hruns : ∀ id, Runs (env.build id)) (name : String)
    (argc : Nat) (block : Bool) (s : Span) (owners : List String) :
    Runs (env.findMacro name argc block s owners) := by
  have hrel : running.Rel (env.findMacro name argc block s owners)
      (env.findMacro name argc block s owners) := Walk.rel_findMacro hruns name argc block s owners
  exact hrel

/-- What still waits once all that wait could be tried has failed. -/
theorem failed_of_mem_pending {env : Typer} (hsettles : SettlingBuilds env.build)
    (hruns : ∀ id, Runs (env.build id)) {t t' : Typing} {owner x : String}
    (h : env.buildPending (t.work.session.pending owner x) t = .ok (true, t'))
    {p : Nat × BuildState} (hp : p ∈ t'.work.session.pending owner x) : p.2 = .failed := by
  obtain ⟨id, state⟩ := p
  obtain ⟨d, hd, howner, hname, hs, hne⟩ := Session.mem_pending.1 hp
  have hstate : t'.work.stateOf id = some state := by rw [stateOf, hd, Option.map_some, hs]
  have hstates : ∀ p ∈ t.work.session.pending owner x, t.work.stateOf p.1 = some p.2 := by
    rintro ⟨id, state⟩ hp
    obtain ⟨d, hd, -, -, hs, -⟩ := Session.mem_pending.1 hp
    rw [stateOf, hd, Option.map_some, hs]
  obtain ⟨hsettled, hfinal⟩ := final_buildPending hsettles (.refl _) hstates h
  rcases hsettled.states id not_false with hsame | ⟨-, hresolved | hfailed⟩
  · -- it has been waiting before
    obtain ⟨d₀, hd₀, hs₀⟩ := exists_of_stateOf (hsame.symm.trans hstate)
    obtain ⟨d₁, hd₁, hspec, howner₀⟩ := ((runs_buildPending hruns _).run h).definition_stays hd₀
    obtain rfl : d₁ = d := Option.some.inj (hd₁.symm.trans hd)
    obtain ⟨final, hfinal', hisFinal⟩ := hfinal (id, state) (Session.mem_pending.2
      ⟨d₀, hd₀, howner₀ ▸ howner, hspec ▸ hname, hs₀, hne⟩)
    obtain rfl : final = state := Option.some.inj (hfinal'.symm.trans hstate)
    exact eq_failed_of_isFinal hisFinal hne
  · exact absurd (Option.some.inj (hstate.symm.trans hresolved)) hne
  · exact Option.some.inj (hstate.symm.trans hfailed)

section Search

variable {scriptType : String} {first : Nat} {ds : List MacroDefinition}

/-- The definition on the type of scripts has failed once all that wait could be tried. -/
theorem failed_of_buildPending {env : Typer} (hsettles : SettlingBuilds env.build)
    (hruns : ∀ id, Runs (env.build id)) {t t' : Typing}
    (ht' : t'.work.Clashes scriptType first ds)
    (h : env.buildPending (t.work.session.pending scriptType bodyMethod) t = .ok (true, t')) :
    (t'.work.session.pending scriptType bodyMethod).any (·.2 == .failed) = true := by
  obtain ⟨c, hc, howner, hname⟩ := ht'.clash
  obtain ⟨i, hi⟩ := List.getElem?_of_mem hc
  obtain ⟨d, hd, hdowner, hdspec⟩ := ht'.met i c hi
  have hpending : (first + i, d.state) ∈ t'.work.session.pending scriptType bodyMethod :=
    Session.mem_pending.2 ⟨d, hd, hdowner.trans howner, hdspec ▸ hname, rfl,
      ht'.unresolved _ d hd (.inr (hdspec ▸ hname))⟩
  have hfailed : d.state = .failed := failed_of_mem_pending hsettles hruns h hpending
  exact List.any_eq_true.2 ⟨_, hpending, by rw [hfailed]; rfl⟩

/-- Looking for a macro with the name of the method that holds bodies fails wherever the type of
    scripts is searched. -/
theorem findMacro_clashes {env : Typer}
    (hbuild : ∀ id, Preserves (Clashes scriptType first ds) (env.build id))
    (hsettles : SettlingBuilds env.build) (hruns : ∀ id, Runs (env.build id)) {argc : Nat}
    {block : Bool} {s : Span} {owners : List String} (hscript : scriptType ∈ owners) {t t' : Typing}
    {r : Except Diagnostic (Option MacroEntry)} (ht : t.work.Clashes scriptType first ds)
    (h : env.findMacro bodyMethod argc block s owners t = .ok (r, t')) : ∃ e, r = .error e := by
  induction owners generalizing t with
  | nil => cases hscript
  | cons owner owners ih =>
    rw [findMacro] at h
    simp only [TypeM.bind_apply, TypeM.session_apply] at h
    have hkept := preserves_buildPending (clashes_preserved scriptType first ds) hbuild
      (t.work.session.pending owner bodyMethod) t ht
    cases hpending : env.buildPending (t.work.session.pending owner bodyMethod) t with
    | error s =>
      rw [hpending] at h
      cases h
    | ok p =>
      obtain ⟨all, t₁⟩ := p
      rw [hpending] at h hkept
      have ht₁ : t₁.work.Clashes scriptType first ds := hkept
      cases all with
      | false =>
        cases h
        exact ⟨_, rfl⟩
      | true =>
        have hhidden := TypeRegistry.lookupMacro_of_hides
          (TypeRegistry.hides_of_entries ht₁.reserved.entries owner) argc block
        simp only [if_true, TypeM.bind_apply, TypeM.session_apply, hhidden] at h
        by_cases hany : (t₁.work.session.pending owner bodyMethod).any (·.2 == .failed) = true
        · rw [if_pos hany] at h
          cases h
          exact ⟨_, rfl⟩
        · rw [if_neg hany] at h
          refine ih ?_ ht₁ h
          refine (List.mem_cons.1 hscript).resolve_left fun heq => hany ?_
          subst heq
          exact failed_of_buildPending hsettles hruns ht₁ hpending

end Search

/-! ### Typing units -/

/-- Whether a computation that starts in a session with `I` reports an error, unless it is cut
    off. -/
def Reports (I : Work → Prop) {α : Type} (x : TypeM α) : Prop :=
  ∀ t a t', I t.work → x t = .ok (a, t') → t'.errors ≠ []

namespace Reports

variable {I : Work → Prop} {α β : Type} {x : TypeM α} {f : α → TypeM β}

/-- The error may be reported late. -/
theorem after (hx : Preserves I x) (hf : ∀ a, Reports I (f a)) : Reports I (x >>= f) := by
  intro t b t' ht h
  have hkept := hx t ht
  rw [TypeM.bind_apply] at h
  cases hfirst : x t with
  | error s =>
    rw [hfirst] at h
    cases h
  | ok p =>
    rw [hfirst] at h hkept
    exact hf p.1 p.2 b t' hkept h

/-- What comes later does not take the error back. -/
theorem before (hx : Reports I x) (hf : ∀ a, Collects (f a)) : Reports I (x >>= f) := by
  intro t b t' ht h
  rw [TypeM.bind_apply] at h
  cases hfirst : x t with
  | error s =>
    rw [hfirst] at h
    cases h
  | ok p =>
    rw [hfirst] at h
    have hsome := hx t p.1 p.2 ht hfirst
    exact fun hnil => hsome (List.prefix_nil.1 (hnil ▸ hf p.1 p.2 b t' h))

theorem withLocals (hx : Reports I x) (locals : NameMap TypeRef) :
    Reports I (TypeM.withLocals locals x) := by
  intro t a t' ht h
  simp only [TypeM.withLocals, TypeM.bind_apply, TypeM.get_apply, TypeM.modify_apply] at h
  cases hbody : x { t with locals } with
  | error s =>
    rw [hbody] at h
    cases h
  | ok p =>
    rw [hbody] at h
    cases h
    exact hx { t with locals } p.1 p.2 ht hbody

end Reports

section Unit

variable {scriptType : String} {first n : Nat} {ds : List MacroDefinition} {scope : Scope}
  (hbuild : ∀ id, Preserves (Clashes scriptType first ds) (require n id))
include hbuild

/-- A call of the method that holds bodies is an error. -/
theorem reports_call (hscript : scriptType ∈ scope.macroOwners) (s : Span) (args : List Node) :
    Reports (Clashes scriptType first ds)
      ((outermost (require n)).infer scope ⟨s, .invoke bodyMethod args none⟩) := by
  intro t p t' ht h
  rw [infer, TypeM.bind_apply] at h
  cases hfind : (outermost (require n)).findMacro bodyMethod args.length false s scope.macroOwners t with
  | error s' =>
    rw [Option.isSome_none, hfind] at h
    cases h
  | ok q =>
    obtain ⟨r, t₁⟩ := q
    obtain ⟨e, rfl⟩ := @findMacro_clashes _ _ _ (outermost (require n)) hbuild (settling_require n)
      (runs_require n) _ _ _ _ hscript _ _ _ ht hfind
    rw [Option.isSome_none, hfind] at h
    cases h
    exact List.append_ne_nil_of_right_ne_nil _ (List.cons_ne_nil _ _)

omit hbuild in
/-- The statements of a body only add errors. -/
theorem collects_items (type : TypeRef) (ids : List (Option Nat)) (items : List Node) :
    Collects ((outermost (require n)).inferItems scope type ids items) := by
  have hbuild (id : Nat) : collecting.Rel ((outermost (require n)).build id)
      ((outermost (require n)).build id) := (spares_require n id).collects
  exact Congruence.rel_inferItems hbuild scope type ids items fun i _ =>
    collects_within n expansionLimit scope i

omit hbuild in
/-- A body that begins with an error. -/
theorem reports_items {first' : Node} {items : List Node} (hfirst : first'.spec? = none)
    (h : Reports (Clashes scriptType first ds) ((outermost (require n)).infer scope first'))
    (type : TypeRef) (ids : List (Option Nat)) : Reports (Clashes scriptType first ds)
      ((outermost (require n)).inferItems scope type ids (first' :: items)) := by
  rw [inferItems]
  · exact h.before fun p => (collects_items p.2 ids.tail items).bind fun q =>
      collecting.pure (p.1 :: q.1, q.2)
  · rintro s name args body id rfl -
    cases hfirst

/-- The entry method of a unit is an error, as it holds such a call. -/
theorem reports_entry (hscript : scriptType ∈ scope.macroOwners) (s : Span) (args : List Node) :
    Reports (Clashes scriptType first ds) ((outermost (require n)).infer scope
      ⟨s, .methodDef Extension.entryMethod [] (some "Node")
        ⟨s, .body [⟨s, .invoke bodyMethod args none⟩]⟩⟩) := by
  let C := (clashes_preserved scriptType first ds).congruence
  have hbody : Reports (Clashes scriptType first ds) ((outermost (require n)).infer scope
      ⟨s, .body [⟨s, .invoke bodyMethod args none⟩]⟩) := by
    rw [infer]
    refine .after (C.rel_prescan scope _) fun ids => .before ?_ fun _ => collecting.pure _
    exact reports_items rfl (reports_call hbuild hscript s args) .nil ids
  rw [infer, inferParams]
  refine .after (C.pure _) fun params => (hbody.withLocals _).before fun p => ?_
  exact collecting.bind (collecting.declare _ _) fun _ => collecting.pure _

/-- Typing the class of a unit reports an error. -/
theorem reports_unit {env : InlineEnv} (hmethod : env.macros.get? bodyMethod = none)
    {unit owner : String} {m : MacroSpec} {s : Span} {tree : Node}
    (htree : (Extension.ofSpec unit m s).expandInline env = .ok tree) :
    Reports (Clashes scriptType first ds)
      (within (require n) expansionLimit (Scope.unit unit owner scriptType) tree) := by
  let C := (clashes_preserved scriptType first ds).congruence
  obtain ⟨first', args, last, rfl, hfirst⟩ := Extension.exists_of_ofSpec hmethod htree
  let inside := (Scope.unit unit owner scriptType).inClass (TypeRef.ofName unit)
  have hscript : scriptType ∈ inside.macroOwners := by
    rw [Scope.macroOwners, List.mem_eraseDups]
    exact List.mem_append_right _ List.mem_cons_self
  rw [within_expansionLimit, infer]
  refine .after (C.openClass unit _ s) fun _ => (Reports.withLocals ?_ _).before fun _ =>
    collecting.pure _
  rw [infer]
  refine .after (C.rel_prescan inside _) fun ids => .before ?_ fun _ => collecting.pure _
  -- whatever the constructor has become, the entry method comes next
  rw [inferItems]
  · refine .after (preserves_within (clashes_preserved scriptType first ds) hbuild expansionLimit
      inside first') fun p => .before ?_ fun _ => collecting.pure _
    exact reports_items rfl (reports_entry hbuild hscript s args) _ _
  · rintro s name args body id rfl -
    cases hfirst

end Unit

/-! ### Builds -/

section Builds

variable {scriptType : String} {first n : Nat} {ds : List MacroDefinition}

/-- What a computation preserves stays if errors put aside are all that it looks at besides. -/
theorem Holds.inferUnit_of_reports {I : Work → Prop} {typed : Scope → Node → TypeM (Node × TypeRef)}
    {scope : Scope} {tree : Node} (hkept : Preserves I (typed scope tree))
    (hreports : Reports I (typed scope tree)) :
    Holds I (Typer.inferUnit typed scope tree) (fun _ _ => False) (fun _ => I) I := by
  intro t ht
  have hkept := hkept { t with locals := {}, errors := [] } ht
  have hreports := hreports { t with locals := {}, errors := [] }
  simp only [Typer.inferUnit, ExceptT.run, ExceptT.mk, TypeM.bind_apply, TypeM.get_apply,
    TypeM.modify_apply]
  revert hkept hreports
  rcases typed scope tree { t with locals := {}, errors := [] } with s | ⟨p, s⟩
  · exact fun hkept _ => hkept
  · intro hkept hreports
    have hsome := hreports p s ht rfl
    dsimp only
    cases hs : s.errors with
    | nil => exact absurd hs hsome
    | cons e _ => exact hkept

/-- No build gets to the end: the typing of its unit fails, if nothing did before. -/
theorem holds_buildSteps
    (hbuild : ∀ id, Preserves (Clashes scriptType first ds) (require n id)) (id : Nat)
    (d : MacroDefinition) :
    Holds (Clashes scriptType first ds) (buildSteps (within (require n) expansionLimit) id d)
      (fun _ _ => False) (fun _ => Clashes scriptType first ds)
      (Clashes scriptType first ds) := by
  refine .bind (Q := fun _ _ => False) ?_ fun _ t ht => ht.elim
  refine .bind (Q := fun p k => k.Clashes scriptType first ds ∧
    ∃ env : InlineEnv, env.macros.get? bodyMethod = none ∧
      (Extension.ofSpec p.1 d.spec d.span).expandInline env = .ok p.2) (.step ?_ ?_) ?_
  · -- the unit is put together
    intro k p hk hok
    rw [extend_run] at hok ⊢
    refine ⟨hk.naming id d.owner, k.session.inlineEnv, hk.reserved.inline, ?_⟩
    dsimp only at hok
    cases hn : (Extension.ofSpec (k.nextUnit d.owner) d.spec d.span).expandInline
        k.session.inlineEnv with
    | error e =>
      rw [hn] at hok
      cases hok
    | ok tree =>
      rw [hn] at hok
      cases hok
      exact hn
  · intro k e hk _
    rw [extend_run]
    exact hk.naming id d.owner
  · rintro ⟨unit, tree⟩
    refine .assuming fun hentry => ?_
    obtain ⟨env, hmethod, htree⟩ := hentry
    refine .bind (.note id .compiling fun k hk => hk.noting id (by simp)) fun _ => ?_
    refine .bind (Q := fun s k => k.Clashes scriptType first ds ∧
      s.types.scriptType = scriptType) (.lift fun t ht => ⟨_, t, rfl, ht, ht.script⟩) fun s => ?_
    refine .assuming fun hscript => ?_
    rw [hscript]
    refine .bind (Holds.inferUnit_of_reports ?_ (reports_unit hbuild hmethod htree)) fun _ t ht =>
      ht.elim
    exact preserves_within (clashes_preserved scriptType first ds) hbuild expansionLimit _ tree

/-- No build changes that there is a clash, and none succeeds. -/
theorem preserves_clashes (scriptType : String) (first : Nat) (ds : List MacroDefinition)
    (n id : Nat) :
    Preserves (Clashes scriptType first ds) (require n id) := by
  induction n generalizing id with
  | zero =>
    intro t ht
    rcases require_cases id t with ⟨r, hr⟩ | ⟨d, -, -, hcut, -⟩
    · rw [hr]
      exact ht
    · rw [hcut]
      exact ht
  | succ n ih =>
    intro t ht
    rcases require_cases id t with ⟨r, hr⟩ | ⟨d, -, -, -, hbuild⟩
    · rw [hr]
      exact ht
    · rw [hbuild, buildDefinition_apply]
      have hsteps := holds_buildSteps ih id d { t with work := t.work.noting id .extending }
        (ht.noting id (by simp))
      revert hsteps
      rcases (buildSteps (within (require n) expansionLimit) id d).run
        { t with work := t.work.noting id .extending } with s | ⟨e | a, s⟩
      · exact fun hs => hs
      · intro hs
        dsimp only
        rw [conclude_error]
        exact hs.modify id (fun _ => ⟨rfl, rfl⟩) fun _ => .inr (by simp)
      · exact False.elim

end Builds

/-! ### Sources -/

/-- The definitions of a body are met before the body is typed, and all that changes besides are
    the methods of types. -/
theorem prescan_apply {scope : Scope} {owner : String} (howner : scope.selfType.owner = some owner)
    (items : List Node) (t : Typing) :
    ∃ ids types, prescan scope items t = .ok (ids, { t with work := { t.work with
      session := { t.work.session with
        types
        definitions := t.work.session.definitions ++
          MacroDefinition.ofItems owner t.work.session.source items } } }) ∧
      types.scriptType = t.work.session.types.scriptType ∧
      ∀ e ∈ types.entries, e ∈ t.work.session.types.entries := by
  induction items generalizing t with
  | nil =>
    refine ⟨[], t.work.session.types, ?_, rfl, fun e he => he⟩
    rw [MacroDefinition.ofItems, List.filterMap_nil, List.append_nil]
    rfl
  | cons n items ih =>
    cases hspec : n.spec? with
    | some spec =>
      have hn := Node.eq_of_spec? hspec
      let d : MacroDefinition := { spec, owner, span := n.span, source := t.work.session.source }
      have hitems : MacroDefinition.ofItems owner t.work.session.source (n :: items) =
          d :: MacroDefinition.ofItems owner t.work.session.source items := by
        simp [MacroDefinition.ofItems, MacroDefinition.ofItem?, hspec, d]
      obtain ⟨ids, types, hrest, hsame⟩ := ih { t with work := t.work.meeting [d] }
      refine ⟨some t.work.met :: ids, types, ?_, hsame⟩
      rw [hitems, hn, prescan]
      simp only [howner, TypeM.bind_apply, register_eq]
      rw [hrest]
      simp [Work.meeting]
    | none =>
      have hitems : MacroDefinition.ofItems owner t.work.session.source (n :: items) =
          MacroDefinition.ofItems owner t.work.session.source items := by
        simp [MacroDefinition.ofItems, MacroDefinition.ofItem?, hspec]
      rw [hitems]
      by_cases hmethod : ∃ s name params returns body, n = ⟨s, .methodDef name params returns body⟩
      · obtain ⟨s, name, params, returns, body, rfl⟩ := hmethod
        let m : Method := ⟨name, params.map parameterType, (returns.map TypeRef.ofName).getD .any⟩
        have hdefine : defineMethod scope m t = .ok ((), { t with work := { t.work with
            session := { t.work.session with
              types := t.work.session.types.modify owner (·.define m) } } }) := by
          rw [defineMethod, howner]
          rfl
        obtain ⟨ids, types, hrest, hscript, hentries⟩ := ih { t with work := { t.work with
          session := { t.work.session with
            types := t.work.session.types.modify owner (·.define m) } } }
        refine ⟨none :: ids, types, ?_, hscript, fun e he =>
          TypeRegistry.mem_entries_define (hentries e he)⟩
        rw [prescan]
        simp only [TypeM.bind_apply, hdefine, hrest, TypeM.pure_apply, m]
      · obtain ⟨ids, types, hrest, hsame⟩ := ih t
        refine ⟨none :: ids, types, ?_, hsame⟩
        rw [prescan]
        · simp only [TypeM.bind_apply, hrest, TypeM.pure_apply]
        · rintro s name args body rfl
          cases hspec
        · rintro s name params returns body rfl
          exact hmethod ⟨s, name, params, returns, body, rfl⟩

/-- Typing a body with a definition of the name on the type of scripts leaves a session in which
    the definitions clash. -/
theorem clashes_infer {n : Nat} {scriptType : String} {s : Span} {items : List Node} {t : Typing}
    (hreserved : t.work.Reserved) (hscript : t.work.session.types.scriptType = scriptType)
    (hclash : ∃ i ∈ items, ∃ m, i.spec? = some m ∧ m.name = bodyMethod)
    (hearlier : ∀ d ∈ t.work.session.definitions, d.spec.name ≠ bodyMethod) {p : Node × TypeRef}
    {t' : Typing} (h : inferWithin n (Scope.script scriptType) ⟨s, .body items⟩ t = .ok (p, t')) :
    t'.work.Clashes scriptType t.work.met
      (MacroDefinition.ofItems scriptType t.work.session.source items) := by
  let ds := MacroDefinition.ofItems scriptType t.work.session.source items
  obtain ⟨ids, types, hscan, hkept, hentries⟩ :=
    @prescan_apply (Scope.script scriptType) scriptType rfl items t
  rw [inferWithin, within_expansionLimit, infer, TypeM.bind_apply, hscan] at h
  -- once the definitions have been met, they clash, and typing the items does not change that
  have hmet : Clashes scriptType t.work.met ds ⟨{ t.work.session with
      types
      definitions := t.work.session.definitions ++ ds }, t.work.world⟩ := by
    have hopen (d) (hd : d ∈ ds) : d.state = .unresolved := by
      obtain ⟨i, -, hi⟩ := List.mem_filterMap.1 hd
      obtain ⟨m, -, rfl⟩ := Option.map_eq_some_iff.1 hi
      rfl
    refine ⟨⟨fun e he => hreserved.entries e (hentries e he), hreserved.files, hreserved.inline⟩,
      hkept.trans hscript, ?_, fun i d hd => ⟨d, ?_, rfl, rfl⟩, fun id d hd hwhich => ?_⟩
    · obtain ⟨i, hi, m, hm, hname⟩ := hclash
      exact ⟨{ spec := m, owner := scriptType, span := i.span, source := t.work.session.source },
        List.mem_filterMap.2 ⟨i, hi, by rw [MacroDefinition.ofItem?, hm]; rfl⟩, rfl, hname⟩
    · show (t.work.session.definitions ++ ds)[t.work.session.definitions.length + i]? = some d
      rw [List.getElem?_append_right (Nat.le_add_right _ _), Nat.add_sub_cancel_left, hd]
    · have hget : (t.work.session.definitions ++ ds)[id]? = some d := hd
      rcases Nat.lt_or_ge id t.work.met with hlt | hge
      · rw [List.getElem?_append_left hlt] at hget
        refine absurd ?_ (hearlier d (List.mem_of_getElem? hget))
        exact hwhich.resolve_left (Nat.not_le.2 hlt)
      · rw [List.getElem?_append_right hge] at hget
        rw [hopen d (List.mem_of_getElem? hget)]
        simp
  let C := (clashes_preserved scriptType t.work.met ds).congruence
  have hbuild (id : Nat) : C.Rel ((outermost (require n)).build id)
      ((outermost (require n)).build id) := preserves_clashes scriptType t.work.met ds n id
  have hitems : Preserves (Clashes scriptType t.work.met ds)
      ((outermost (require n)).inferItems (Scope.script scriptType) .nil ids items) :=
    TypeM.Congruence.rel_inferItems hbuild (Scope.script scriptType) .nil ids items fun i _ =>
      preserves_within (clashes_preserved scriptType t.work.met ds)
        (preserves_clashes scriptType t.work.met ds n) expansionLimit (Scope.script scriptType) i
  have hbody := hitems.bind (fun q => C.pure ((⟨s, .body q.1⟩ : Node), q.2)) { t with work := _ } hmet
  have hlast : last (.ok (p, t')) = t' := rfl
  rw [← hlast, ← h]
  exact hbody

end Typer

namespace Work

variable {k k' : Work} {nesting : Nat} {source text : String} {parsed : Node} {s : Span}
  {items : List Node} {r : Except Diagnostic Compilation}

/-- **Theorem.** If one of the macros that a script defines has the name of the method that holds
    bodies, then none of its macros is built, and no other one that is met on the way: every
    definition fails. -/
theorem compile_clashes (hparse : Program.parse source text = .ok parsed)
    (htree : (parsed.expandInlineAll (k.enter source).session.inlineEnv).1 = ⟨s, .body items⟩)
    (hclash : ∃ i ∈ items, ∃ m, i.spec? = some m ∧ m.name = bodyMethod)
    (hrest : k.AtRest) (hreserved : k.Reserved)
    (hearlier : ∀ d ∈ k.session.definitions, d.spec.name ≠ bodyMethod)
    (hscript : k.session.types.scriptType = k.session.settings.scriptType)
    (hrun : k.compileWithin nesting source text = .ok (r, k')) :
    (∀ i d, (MacroDefinition.ofItems k.session.settings.scriptType source items)[i]? = some d →
      ∃ d', k'.session.definition? (k.met + i) = some d' ∧ d'.owner = d.owner ∧ d'.spec = d.spec) ∧
    ∀ id d, k.met ≤ id → k'.session.definition? id = some d → d.state = .failed := by
  have hatRest := hrest.compileWithin hrun
  rw [compileWithin_of_parse nesting hparse, htree] at hrun
  cases htyped : Typer.inferWithin nesting (Scope.script (k.enter source).session.settings.scriptType)
      ⟨s, .body items⟩ { work := k.enter source } with
  | error t =>
    rw [htyped] at hrun
    cases hrun
  | ok q =>
    obtain ⟨p, t⟩ := q
    have hclashes := Typer.clashes_infer (t := { work := k.enter source })
      ⟨hreserved.entries, hreserved.files, hreserved.inline⟩ hscript hclash hearlier htyped
    rw [htyped] at hrun
    have hsession : k'.session = t.work.session := by
      have hfinish := Except.ok.inj hrun
      obtain ⟨⟨files, hfiles⟩, -⟩ := t.work.finish_cases _
      rw [hfinish] at hfiles
      rw [show k' = _ from hfiles]
    have hfinal (id) (d) (hid : k.met ≤ id) (hd : k'.session.definition? id = some d) :
        d.state = .failed := by
      refine (hatRest.definitions d (List.mem_of_getElem? hd)).resolve_left ?_
      exact hclashes.unresolved id d (hsession ▸ hd) (.inl hid)
    exact ⟨fun i d hd => hsession.symm ▸ hclashes.met i d hd, hfinal⟩

/-- Whether the first item of a script defines a macro of that name. -/
def definesFirst (name : String) : Node → Bool
  | ⟨_, .body (⟨_, .macroDef x _ _ none⟩ :: _)⟩ => x == name
  | _ => false

theorem of_definesFirst {name : String} {n : Node} (h : definesFirst name n) :
    ∃ s s' args body items, n = ⟨s, .body (⟨s', .macroDef name args body none⟩ :: items)⟩ := by
  unfold definesFirst at h
  split at h
  · rw [beq_iff_eq] at h
    exact ⟨_, _, _, _, _, by rw [h]⟩
  · cases h

/-- A script that defines a macro of that name and another one, neither of which is built. -/
theorem compile_clashes_pair :
    let k : Work := ⟨Session.start {} (.own {}), {}⟩
    ∃ r k', k.compileWithin 1 "clash" "macro def _expand(); 1; end\nmacro def e(); 2; end" =
        .ok (r, k') ∧ k'.session.definitions.map (·.spec.name) = ["_expand", "e"] ∧
      ∀ id d, k.met ≤ id → k'.session.definition? id = some d → d.state = .failed := by
  intro k
  let text := "macro def _expand(); 1; end\nmacro def e(); 2; end"
  have hshape : (Program.parse "clash" text).toOption.any (fun n =>
      definesFirst bodyMethod (n.expandInlineAll (k.enter "clash").session.inlineEnv).1) = true := by
    decide +kernel
  have hends : (k.compileWithin 1 "clash" text).toOption.map (fun p =>
      p.2.session.definitions.map (·.spec.name)) = some ["_expand", "e"] := by
    decide +kernel
  have hentries : k.session.types.entries = [] := by decide +kernel
  have hinline : k.session.inline.get? bodyMethod = none := by decide +kernel
  have hfiles (name : String) :
      Descriptor.find k.world.files name k.session.settings.classpath = .ok none := rfl
  have hdefinitions : k.session.definitions = [] := rfl
  have hrest : k.AtRest := ⟨rfl, rfl, fun d hd => absurd hd List.not_mem_nil⟩
  have hscript : k.session.types.scriptType = k.session.settings.scriptType := rfl
  clear_value k
  have hreserved : k.Reserved := by
    refine ⟨fun e he => absurd (hentries ▸ he) List.not_mem_nil, fun name d hd => ?_, hinline⟩
    rw [hfiles] at hd
    cases hd
  cases hparse : Program.parse "clash" text with
  | error d =>
    rw [hparse] at hshape
    cases hshape
  | ok n =>
    rw [hparse] at hshape
    obtain ⟨s, s', args, body, items, htree⟩ := of_definesFirst hshape
    cases hrun : k.compileWithin 1 "clash" text with
    | error k' =>
      rw [hrun] at hends
      cases hends
    | ok p =>
      rw [hrun] at hends
      refine ⟨p.1, p.2, rfl, Option.some.inj hends, ?_⟩
      exact (compile_clashes hparse htree ⟨_, List.mem_cons_self, ⟨_, args, body⟩, rfl, rfl⟩ hrest
        hreserved (fun d hd => absurd (hdefinitions ▸ hd) List.not_mem_nil) hscript hrun).2

end Work

end Quasiquote
