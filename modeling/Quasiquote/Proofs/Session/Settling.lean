import Mathlib.Data.List.Forall2
import Quasiquote.Proofs.Files
import Quasiquote.Proofs.Session.Runs
import Quasiquote.Proofs.Template.Balance

namespace Quasiquote

/-!
# Settling — what a compilation finishes

Typing meets definitions before it builds them, and it builds some of them on the way, for
the sake of calls.  By the time it ends it has built all that it met: a body that registers
definitions visits each of them.

* `Work.Settles` — every definition is as it was, or it was open and is settled;
* `TypeM.Settling`, `Typer.settling_require`, `Typer.settling_inferWithin` — building and
  typing settle what they meet, unless they are cut off;
* `Work.Idle` — the sessions between compilations and other uses;
* `Work.Idle.atRest`, `Work.compile_rests` — such a session is at rest, and a compilation
  that ends leaves it so.
-/

/-- Whether a definition is as it was, or was open, possibly not met, and is settled. -/
def BuildState.Settles (s s' : Option BuildState) : Prop :=
  s' = s ∨ (s = none ∨ s = some .unresolved) ∧ (s' = some .resolved ∨ s' = some .failed)

namespace BuildState.Settles

theorem refl (s : Option BuildState) : Settles s s := .inl rfl

theorem trans {s₁ s₂ s₃ : Option BuildState} (h : Settles s₁ s₂) (h' : Settles s₂ s₃) :
    Settles s₁ s₃ := by
  rcases h with rfl | ⟨hopen, hfinal⟩
  · exact h'
  · rcases h' with rfl | ⟨hopen', -⟩
    · exact .inr ⟨hopen, hfinal⟩
    · rcases hfinal with rfl | rfl <;> simp at hopen'

/-- What is not open stays so. -/
theorem ne_unresolved {s s' : Option BuildState} (h : Settles s s') (hs : s ≠ some .unresolved) :
    s' ≠ some .unresolved := by
  rcases h with rfl | ⟨-, rfl | rfl⟩
  · exact hs
  · simp
  · simp

/-- What is settled stays so, and so does what is met in between. -/
theorem settled {s s' : Option BuildState} (h : Settles s s')
    (hs : ∀ b, s = some b → b.isFinal = true) (b : BuildState) (hb : s' = some b) :
    b.isFinal = true := by
  rcases h with rfl | ⟨-, rfl | rfl⟩
  · exact hs b hb
  · cases hb; rfl
  · cases hb; rfl

/-- A definition that was met now and is no longer open is settled. -/
theorem of_unresolved {s' : Option BuildState} (h : Settles (some .unresolved) s')
    (hs : s' ≠ some .unresolved) : Settles none s' := by
  rcases h with rfl | ⟨-, hfinal⟩
  · exact absurd rfl hs
  · exact .inr ⟨.inl rfl, hfinal⟩

end BuildState.Settles

namespace Work

/-- How far the definition with a number is, if it is met. -/
def stateOf (k : Work) (id : Nat) : Option BuildState :=
  (k.session.definition? id).map MacroDefinition.state

theorem stateOf_congr {k k' : Work} (h : k'.session.definitions = k.session.definitions)
    (id : Nat) : k'.stateOf id = k.stateOf id := by
  rw [stateOf, Session.definition?, h]
  rfl

/-- Whether scopes and sites are the same, and every definition is as it was or is settled,
    those that are `free` aside. -/
structure Settles (free : Nat → Prop) (k k' : Work) : Prop where
  scopes : k'.session.scopes = k.session.scopes
  sites : k'.session.sites = k.session.sites
  met : k.session.definitions.length ≤ k'.session.definitions.length
  states : ∀ id, ¬ free id → BuildState.Settles (k.stateOf id) (k'.stateOf id)

namespace Settles

variable {free : Nat → Prop} {k k' k'' : Work}

theorem refl (k : Work) : Settles free k k := ⟨rfl, rfl, Nat.le_refl _, fun _ _ => .refl _⟩

theorem trans (h : Settles free k k') (h' : Settles free k' k'') : Settles free k k'' :=
  ⟨h'.scopes.trans h.scopes, h'.sites.trans h.sites, Nat.le_trans h.met h'.met,
    fun id hid => (h.states id hid).trans (h'.states id hid)⟩

/-- Changes of other parts. -/
theorem of_eq (hscopes : k'.session.scopes = k.session.scopes)
    (hsites : k'.session.sites = k.session.sites)
    (hdefinitions : k'.session.definitions = k.session.definitions) : Settles free k k' :=
  ⟨hscopes, hsites, Nat.le_of_eq (by rw [hdefinitions]),
    fun id _ => .inl (stateOf_congr hdefinitions id)⟩

/-- A change of a definition that is free. -/
theorem modify (id : Nat) (f : MacroDefinition → MacroDefinition) :
    Settles (· = id) k { k with session := k.session.modifyDefinition id f } where
  scopes := rfl
  sites := rfl
  met := Nat.le_of_eq (List.length_modify _ _ _).symm
  states other hne := by
    exact .inl (congrArg (Option.map MacroDefinition.state) (Session.definition?_modify_ne rfl hne))

theorem withUnits (k : Work) (units : Namespace) : Settles free k (k.withUnits units) := by
  obtain ⟨_, _, h⟩ := k.withUnits_eq units
  rw [h]
  exact .of_eq rfl rfl rfl

theorem importType (k : Work) (name : String) :
    Settles free k ((SessionM.importType name).run k).2 := by
  obtain ⟨types, units, h⟩ := SessionM.keeps_importType name k
  rw [h]
  have hfirst : Settles free k { k with session := { k.session with types } } := .of_eq rfl rfl rfl
  exact hfirst.trans (withUnits _ units)

theorem opened (k : Work) (name : String) (superclass : Option String) :
    Settles free k (k.opened name superclass) :=
  Work.opened_of (P := Settles free k) name superclass (.refl k) (importType k name)
    fun _ _ h => h.trans (.of_eq rfl rfl rfl)

theorem registerMacro (k : Work) (d : MacroDefinition) (unit : String) (loaded : LoadedUnit) :
    Settles free k ((Typer.registerMacro d unit loaded).run k).2 := by
  rw [Typer.registerMacro_run]
  split <;> exact .of_eq rfl rfl rfl

/-- Templates close the scopes that they open. -/
theorem expand (k : Work) (unit : LoadedUnit) (call : Node) :
    Settles free k ⟨{ k.session with scopes := (k.expanded unit call).scopes },
      { k.world with printed := k.world.printed ++ (k.expanded unit call).output }⟩ :=
  .of_eq (LoadedUnit.scopes_expand unit (Evaluation.keeps_template _) call _) rfl rfl

end Settles

end Work

namespace TypeM

/-! ### Typing -/

/-- Whether a computation settles what it meets, if it is not cut off. -/
def Settling (free : Nat → Prop) {α : Type} (x : TypeM α) : Prop :=
  ∀ t a s, x t = .ok (a, s) → t.work.Settles free s.work

namespace Settling

variable {free : Nat → Prop} {α β : Type}

theorem of_work {x : TypeM α} (h : ∀ t : Typing, ∃ a s, x t = .ok (a, s) ∧ t.work.Settles free s.work) :
    Settling free x := by
  intro t a s hx
  obtain ⟨a', s', hx', hs⟩ := h t
  rw [hx'] at hx
  cases hx
  exact hs

theorem pure (a : α) : Settling free (Pure.pure a : TypeM α) :=
  of_work fun t => ⟨a, t, rfl, .refl _⟩

theorem bind {x : TypeM α} {f : α → TypeM β} (hx : Settling free x)
    (hf : ∀ a, Settling free (f a)) : Settling free (x >>= f) := by
  intro t b s h
  rw [bind_apply] at h
  split at h
  · rename_i a t' ha
    exact (hx t a t' ha).trans (hf a t' b s h)
  · cases h

theorem mono {x : TypeM α} (h : Settling (fun _ => False) x) : Settling free x :=
  fun t a s hx => { h t a s hx with states := fun id _ => (h t a s hx).states id not_false }

theorem of_attempt {body : SessionM α} (h : ∀ k : Work, k.Settles free (body.run k).2) :
    Settling free (attempt body) :=
  of_work fun t => ⟨_, _, attempt_apply body t, h t.work⟩

end Settling

/-- Settling is kept by every step of typing but the registration of a definition. -/
def settling (free : Nat → Prop) : Walk where
  Rel x _ := Settling free x
  pure := .pure
  bind := .bind
  get := .of_work fun t => ⟨t, t, rfl, .refl _⟩
  scratch f h _ := .of_work fun t => ⟨(), f t, rfl, .of_eq (by rw [h]) (by rw [h]) (by rw [h])⟩
  declare scope m := by
    unfold Typer.defineMethod
    cases scope.selfType.owner with
    | none => exact .pure _
    | some owner => exact .of_work fun t => ⟨_, _, rfl, .of_eq rfl rfl rfl⟩
  importUnknown name := .of_work fun t => by
    obtain ⟨r, work, hrun, rfl | ⟨-, rfl⟩⟩ := exists_importUnknown name t
    · exact ⟨r, _, hrun, .refl _⟩
    · exact ⟨r, _, hrun, .importType _ name⟩
  openClass name superclass s := .of_work fun t => by
    obtain ⟨es, hrun⟩ := Typer.openClass_apply name superclass s t.work
    exact ⟨_, _, hrun t rfl, .opened _ name superclass⟩
  expandCall unit call := .of_work fun t => ⟨_, _, expandCall_apply unit call t, .expand _ _ _⟩
  record e h := .of_work fun t => ⟨_, _, rfl, .of_eq rfl rfl rfl⟩

end TypeM

namespace Typer

open TypeM

/-! ### Definitions and bodies -/

theorem register_apply (spec : MacroSpec) (owner : String) (span : Span) (t : Typing) :
    ∃ s, register spec owner span t = .ok (t.work.session.definitions.length, s) ∧
      s.work = { t.work with session := { t.work.session with definitions :=
        t.work.session.definitions ++ [{ spec, owner, span, source := t.work.session.source }] } } :=
  ⟨_, rfl, rfl⟩

theorem defineMethod_apply (scope : Scope) (m : Method) (t : Typing) :
    ∃ s, defineMethod scope m t = .ok ((), s) ∧
      ∃ types, s.work = { t.work with session := { t.work.session with types } } := by
  unfold defineMethod
  cases scope.selfType.owner with
  | none => exact ⟨t, rfl, _, rfl⟩
  | some owner => exact ⟨_, rfl, _, rfl⟩

/-- Whether builds settle, that of the definition itself included. -/
def SettlingBuilds (build : Nat → TypeM (Except Diagnostic Unit)) : Prop :=
  ∀ id, Settling (fun _ => False) (build id) ∧
    ∀ t r s, build id t = .ok (r, s) → s.work.stateOf id ≠ some .unresolved

/-- What a body is numbered by: those of its definitions that have no number yet get the
    numbers of new definitions, which are open. -/
structure Numbers (items : List Node) (k : Work) (ids : List (Option Nat)) (k' : Work) : Prop where
  scopes : k'.session.scopes = k.session.scopes
  sites : k'.session.sites = k.session.sites
  met : k.session.definitions.length ≤ k'.session.definitions.length
  definitions : List.Forall₂ (fun n o => o.isSome = true →
    ∃ s name args body, n = ⟨s, .macroDef name args body none⟩) items ids
  states : ∀ id, k'.stateOf id = k.stateOf id ∨
    some id ∈ ids ∧ k.stateOf id = none ∧ k'.stateOf id = some .unresolved

namespace Numbers

variable {k k₁ k' : Work} {items : List Node} {ids : List (Option Nat)}

theorem nil (k : Work) : Numbers [] k [] k := ⟨rfl, rfl, Nat.le_refl _, .nil, fun _ => .inl rfl⟩

/-- A statement that gets no number, and may change types. -/
theorem skip (n : Node) (h : Numbers items k₁ ids k')
    (hscopes : k₁.session.scopes = k.session.scopes) (hsites : k₁.session.sites = k.session.sites)
    (hdefinitions : k₁.session.definitions = k.session.definitions) :
    Numbers (n :: items) k (none :: ids) k' where
  scopes := h.scopes.trans hscopes
  sites := h.sites.trans hsites
  met := hdefinitions ▸ h.met
  definitions := .cons (by simp) h.definitions
  states id := by
    rw [← Work.stateOf_congr hdefinitions]
    exact (h.states id).imp_right (And.imp_left (List.mem_cons_of_mem _))

/-- A definition that gets a number. -/
theorem meet {s : Span} {name : String} {args : List Argument} {body : Node}
    {d : MacroDefinition} (hd : d.state = .unresolved) (h : Numbers items k₁ ids k')
    (hk₁ : k₁ = { k with session := { k.session with
      definitions := k.session.definitions ++ [d] } }) :
    Numbers (⟨s, .macroDef name args body none⟩ :: items) k
      (some k.session.definitions.length :: ids) k' where
  scopes := by rw [h.scopes, hk₁]
  sites := by rw [h.sites, hk₁]
  met := by
    have := h.met
    simp only [hk₁, List.length_append] at this
    omega
  definitions := .cons (fun _ => ⟨s, name, args, body, rfl⟩) h.definitions
  states id := by
    have hmet := h.states id
    simp only [hk₁, Work.stateOf, Session.definition?] at hmet ⊢
    by_cases hid : id = k.session.definitions.length
    · -- the new definition itself, which the rest of the body does not meet again
      subst hid
      simp only [List.getElem?_concat_length, Option.map_some, hd] at hmet
      rcases hmet with hmet | ⟨-, hnone, -⟩
      · exact .inr ⟨List.mem_cons_self, by simp, hmet⟩
      · cases hnone
    · have hsame : (k.session.definitions ++ [d])[id]? = k.session.definitions[id]? := by
        rcases Nat.lt_or_gt_of_ne hid with hlt | hgt
        · exact List.getElem?_append_left hlt
        · rw [List.getElem?_eq_none (by simp; omega), List.getElem?_eq_none (by omega)]
      rw [hsame] at hmet
      exact hmet.imp_right (And.imp_left (List.mem_cons_of_mem _))

end Numbers

/-- The definitions of a body are met before the body is typed. -/
theorem numbers_prescan (scope : Scope) (items : List Node) (t : Typing) :
    ∃ ids s, prescan scope items t = .ok (ids, s) ∧ Numbers items t.work ids s.work := by
  fun_induction prescan scope items generalizing t with
  | case1 => exact ⟨[], t, rfl, .nil _⟩
  | case2 s name args body rest hnone ih =>
    obtain ⟨ids, s', hrun, hnumbers⟩ := ih t
    refine ⟨none :: ids, s', ?_, hnumbers.skip _ rfl rfl rfl⟩
    simp only [TypeM.bind_apply, hrun, TypeM.pure_apply]
  | case3 s name args body rest owner hsome ih =>
    obtain ⟨s₁, hregister, hs₁⟩ := register_apply ⟨name, args, body⟩ owner s t
    obtain ⟨ids, s', hrun, hnumbers⟩ := ih s₁
    refine ⟨_ :: ids, s', ?_, hnumbers.meet rfl hs₁⟩
    simp only [TypeM.bind_apply, hregister, hrun, TypeM.pure_apply]
  | case4 s name params returns body rest ih =>
    obtain ⟨s₁, hdeclare, types, hs₁⟩ := defineMethod_apply scope
      ⟨name, params.map parameterType, (returns.map TypeRef.ofName).getD .any⟩ t
    obtain ⟨ids, s', hrun, hnumbers⟩ := ih s₁
    refine ⟨none :: ids, s', ?_, hnumbers.skip _ (by rw [hs₁]) (by rw [hs₁]) (by rw [hs₁])⟩
    simp only [TypeM.bind_apply, hdeclare, hrun, TypeM.pure_apply]
  | case5 n rest _ _ ih =>
    obtain ⟨ids, s', hrun, hnumbers⟩ := ih t
    refine ⟨none :: ids, s', ?_, hnumbers.skip _ rfl rfl rfl⟩
    simp only [TypeM.bind_apply, hrun, TypeM.pure_apply]

/-- A body settles what it meets if it visits it. -/
theorem Numbers.settles {items : List Node} {ids : List (Option Nat)} {k k₁ k' : Work}
    (h : Numbers items k ids k₁) (h₁ : k₁.Settles (fun _ => False) k')
    (hvisited : ∀ id, some id ∈ ids → k'.stateOf id ≠ some .unresolved) :
    k.Settles (fun _ => False) k' where
  scopes := h₁.scopes.trans h.scopes
  sites := h₁.sites.trans h.sites
  met := Nat.le_trans h.met h₁.met
  states id hid := by
    have hlater := h₁.states id hid
    rcases h.states id with hsame | ⟨hmem, hnone, hopen⟩
    · rwa [← hsame]
    · rw [hnone]
      exact .of_unresolved (hopen ▸ hlater) (hvisited id hmem)

variable {env : Typer}

theorem settles_inferDefinition (hbuild : SettlingBuilds env.build) (scope : Scope) (s : Span)
    (spec : MacroSpec) (known : Option Nat) {t s' : Typing} {p : Node × TypeRef}
    (h : env.inferDefinition scope s spec known t = .ok (p, s')) :
    t.work.Settles (fun _ => False) s'.work ∧
      ∀ id, known = some id → s'.work.stateOf id ≠ some .unresolved := by
  -- what is done once there is a number
  have hknown (id : Nat) (t : Typing) (h : env.inferDefinition scope s spec (some id) t = .ok (p, s')) :
      t.work.Settles (fun _ => False) s'.work ∧ s'.work.stateOf id ≠ some .unresolved := by
    unfold inferDefinition at h
    dsimp only at h
    rw [TypeM.bind_apply, TypeM.pure_apply] at h
    dsimp only at h
    rw [TypeM.bind_apply] at h
    split at h
    · rename_i r s₁ hrun
      have hwork : s'.work = s₁.work := by
        cases r with
        | ok _ => cases h; rfl
        | error d => cases h; rfl
      rw [hwork]
      exact ⟨(hbuild id).1 t r s₁ hrun, (hbuild id).2 t r s₁ hrun⟩
    · cases h
  cases known with
  | some id =>
    obtain ⟨hsettles, hvisited⟩ := hknown id t h
    exact ⟨hsettles, fun other hother => by cases hother; exact hvisited⟩
  | none =>
    obtain ⟨s₁, hregister, hs₁⟩ := register_apply spec scope.owner s t
    have h : (register spec scope.owner s >>= fun id =>
        env.inferDefinition scope s spec (some id)) t = .ok (p, s') := h
    rw [TypeM.bind_apply, hregister] at h
    obtain ⟨hsettles, hvisited⟩ := hknown _ s₁ h
    have hnumbers : Numbers [⟨s, .macroDef spec.name spec.args spec.body none⟩] t.work
        [some t.work.session.definitions.length] s₁.work := (Numbers.nil _).meet rfl hs₁
    refine ⟨hnumbers.settles hsettles fun id hid => ?_, fun id hid => by cases hid⟩
    cases List.mem_singleton.1 hid
    exact hvisited

/-- The items of a body settle, and each definition among them that has a number is visited. -/
theorem settles_inferItems (hbuild : SettlingBuilds env.build) (scope : Scope)
    {items : List Node} {ids : List (Option Nat)}
    (hdefinitions : List.Forall₂ (fun n o => o.isSome = true →
      ∃ s name args body, n = (⟨s, .macroDef name args body none⟩ : Node)) items ids)
    (hitems : ∀ n ∈ items, Settling (fun _ => False) (env.infer scope n)) (ty : TypeRef)
    {t s : Typing} {p : List Node × TypeRef}
    (h : env.inferItems scope ty ids items t = .ok (p, s)) :
    t.work.Settles (fun _ => False) s.work ∧
      ∀ id, some id ∈ ids → s.work.stateOf id ≠ some .unresolved := by
  induction hdefinitions generalizing ty t s p with
  | nil =>
    rw [inferItems] at h
    cases h
    exact ⟨.refl _, fun id hid => by cases hid⟩
  | @cons n o items ids hdefinition _ ih =>
    -- the rest of the body keeps what the first item has settled
    have hrest {x : TypeM (Node × TypeRef)}
        (hx : ∀ q s₁, x t = .ok (q, s₁) → t.work.Settles (fun _ => False) s₁.work ∧
          ∀ id, o = some id → s₁.work.stateOf id ≠ some .unresolved)
        (h : (x >>= fun q => env.inferItems scope q.2 ids items >>= fun r =>
          pure (q.1 :: r.1, r.2)) t = .ok (p, s)) :
        t.work.Settles (fun _ => False) s.work ∧
          ∀ id, some id ∈ o :: ids → s.work.stateOf id ≠ some .unresolved := by
      rw [TypeM.bind_apply] at h
      split at h
      · rename_i q s₁ hq
        obtain ⟨hfirst, hvisited⟩ := hx q s₁ hq
        rw [TypeM.bind_apply] at h
        split at h
        · rename_i hq'
          cases h
          obtain ⟨hlater, hmore⟩ := ih (fun m hm => hitems m (List.mem_cons_of_mem _ hm)) q.2 hq'
          refine ⟨hfirst.trans hlater, fun id hid => ?_⟩
          rcases List.mem_cons.1 hid with hid | hid
          · exact (hlater.states id not_false).ne_unresolved (hvisited id hid.symm)
          · exact hmore id hid
        · cases h
      · cases h
    have hitem := hitems n List.mem_cons_self
    unfold inferItems at h
    cases o with
    | some id =>
      obtain ⟨at', name, args, body, rfl⟩ := hdefinition rfl
      exact hrest (fun q s₁ hq => settles_inferDefinition hbuild scope at' _ (some id) hq) h
    | none =>
      split at h
      · rename_i heq
        cases heq
      · exact hrest (fun q s₁ hq => ⟨hitem t q s₁ hq, fun id hid => by cases hid⟩) h

/-- What builds settle, definitions and bodies settle. -/
theorem settling_defines {build : Nat → TypeM (Except Diagnostic Unit)}
    (hbuild : SettlingBuilds build) : (settling fun _ => False).Defines build build where
  definition henv henv' scope s spec known := by
    rename_i env env'
    intro t p s' h
    exact (settles_inferDefinition (henv ▸ hbuild) scope s spec known h).1
  body henv henv' scope items hitems := by
    rename_i env env'
    intro t p s h
    obtain ⟨ids, s₁, hprescan, hnumbers⟩ := numbers_prescan scope items t
    rw [TypeM.bind_apply, hprescan] at h
    obtain ⟨hsettles, hvisited⟩ :=
      settles_inferItems (henv ▸ hbuild) scope hnumbers.definitions hitems .nil h
    exact hnumbers.settles hsettles hvisited

/-- The search for a macro settles what it meets, if builds do. -/
theorem settling_buildPending {env : Typer} (hbuild : SettlingBuilds env.build)
    (ps : List (Nat × BuildState)) : Settling (fun _ => False) (env.buildPending ps) := by
  have hrel : (settling fun _ => False).Rel (env.buildPending ps) (env.buildPending ps) :=
    Walk.rel_buildPending (fun id => (hbuild id).1) ps
  exact hrel

/-- Typing settles what it meets, if builds do. -/
theorem settling_within {build : Nat → TypeM (Except Diagnostic Unit)}
    (hbuild : SettlingBuilds build) (left : Nat) (scope : Scope) (n : Node) :
    Settling (fun _ => False) (within build left scope n) :=
  Walk.rel_within (C := settling fun _ => False) (fun id => (hbuild id).1)
    (settling_defines hbuild) left scope n

/-! ### Builds -/

/-- What the steps of a build settle, the definition that is built aside. -/
def settlingBuild (id : Nat) : BuildWalk id where
  toWalk := settling (· = id)
  aside f h := .of_work fun t => ⟨(), f t, rfl, .of_eq (by rw [h]) (by rw [h]) (by rw [h])⟩
  transition state h := .of_work fun t => ⟨_, _, rfl, .modify id _⟩
  extend d := .of_attempt fun k => by
    rw [extend_run]
    exact .trans (.modify id _) (.of_eq rfl rfl rfl)
  lower n := .of_attempt fun k => .of_eq (Artifacts.keeps_ofProgram n k.session.scopes).symm rfl rfl
  publish d unit files := .of_work fun t => by
    have hnote (k : Work) (state : BuildState) : k.Settles (· = id) (k.noting id state) :=
      .modify id _
    rcases publish_cases id d unit files t with ⟨e, h⟩ | ⟨u, units, -, -, -, -, h⟩
    · exact ⟨_, _, h, hnote _ _⟩
    · refine ⟨_, _, h, ?_⟩
      exact (((hnote t.work .loading).trans (.withUnits _ units)).trans
        (hnote _ .registering)).trans (.registerMacro _ _ _ _)
  persist files := .of_attempt fun k => by
    rw [persist_run]
    split <;> exact .of_eq rfl rfl rfl
  fail e := .of_work fun t => ⟨_, _, rfl, .modify id _⟩

/-- The outcome of a build settles its definition. -/
theorem settled_conclude {id : Nat} {d : MacroDefinition} {r r' : Except Diagnostic Unit}
    {t s : Typing} (hmet : id < t.work.session.definitions.length)
    (h : conclude id d r t = .ok (r', s)) :
    s.work.stateOf id = some .resolved ∨ s.work.stateOf id = some .failed := by
  have hmodify (f : MacroDefinition → MacroDefinition) :
      ((t.work.session.definitions.modify id f)[id]?).map MacroDefinition.state =
        some (f t.work.session.definitions[id]).state := by
    rw [List.getElem?_modify_eq, List.getElem?_eq_getElem hmet]
    rfl
  cases r with
  | ok _ =>
    cases h
    exact .inl (hmodify _)
  | error e =>
    cases h
    exact .inr (hmodify _)

/-- A build that ends settles its definition, and all that it meets. -/
theorem settling_buildDefinition {typed : Scope → Node → TypeM (Node × TypeRef)}
    (htyped : ∀ scope n, Settling (fun _ => False) (typed scope n)) {id : Nat}
    {d : MacroDefinition} {t s : Typing} {r : Except Diagnostic Unit}
    (hd : t.work.stateOf id = some .unresolved)
    (h : buildDefinition typed id d t = .ok (r, s)) :
    t.work.Settles (fun _ => False) s.work ∧ s.work.stateOf id ≠ some .unresolved := by
  have hmet : id < t.work.session.definitions.length := by
    by_contra hnot
    simp [Work.stateOf, Session.definition?, hnot] at hd
  have hbuilding scope n : (settlingBuild id).Rel (typed scope n) (typed scope n) :=
    (htyped scope n).mono
  have hsettled : s.work.stateOf id = some .resolved ∨ s.work.stateOf id = some .failed := by
    rw [buildDefinition_apply] at h
    split at h
    · rename_i r' s' hsteps
      have hsteps : ({ t with work := t.work.noting id .extending } : Typing).work.Settles (· = id)
          s'.work :=
        have hrel : Settling (· = id) (buildSteps typed id d).run :=
          (settlingBuild id).rel_buildSteps hbuilding d
        hrel _ r' s' hsteps
      have hsame : (t.work.noting id .extending).session.definitions.length =
          t.work.session.definitions.length := List.length_modify _ _ _
      exact settled_conclude (Nat.lt_of_lt_of_le (hsame ▸ hmet) hsteps.met) h
    · cases h
  have hothers : t.work.Settles (· = id) s.work :=
    have hrel : Settling (· = id) (buildDefinition typed id d) :=
      (settlingBuild id).rel_buildDefinition hbuilding d
    hrel t r s h
  refine ⟨{ hothers with states := fun other _ => ?_ }, ?_⟩
  · by_cases hid : other = id
    · subst hid
      exact .inr ⟨.inr hd, hsettled⟩
    · exact hothers.states other hid
  · rcases hsettled with hs | hs <;> rw [hs] <;> simp

theorem exists_of_stateOf {k : Work} {id : Nat} {b : BuildState} (h : k.stateOf id = some b) :
    ∃ d, k.session.definition? id = some d ∧ d.state = b := by
  simpa only [Work.stateOf, Option.map_eq_some_iff] using h

/-- Building settles what it meets, the definition itself included. -/
theorem settling_require (n : Nat) : SettlingBuilds (require n) := by
  induction n with
  | zero =>
    -- nothing is built
    have hzero {id : Nat} {t s : Typing} {r : Except Diagnostic Unit}
        (h : require 0 id t = .ok (r, s)) : s = t ∧ t.work.stateOf id ≠ some .unresolved := by
      constructor
      · rcases require_cases id t with ⟨r', hr⟩ | ⟨d, -, -, hcut, -⟩
        · rw [hr] at h
          cases h
          rfl
        · rw [hcut] at h
          cases h
      · intro hopen
        obtain ⟨d, hd, hs⟩ := exists_of_stateOf hopen
        rw [(require_unresolved hd hs).1] at h
        cases h
    refine fun id => ⟨fun t r s h => ?_, fun t r s h => ?_⟩
    · rw [(hzero h).1]
      exact .refl _
    · rw [(hzero h).1]
      exact (hzero h).2
  | succ n ih =>
    have hsucc {id : Nat} {t s : Typing} {r : Except Diagnostic Unit}
        (h : require (n + 1) id t = .ok (r, s)) :
        t.work.Settles (fun _ => False) s.work ∧ s.work.stateOf id ≠ some .unresolved := by
      by_cases hopen : t.work.stateOf id = some .unresolved
      · obtain ⟨d, hd, hs⟩ := exists_of_stateOf hopen
        rw [(require_unresolved hd hs).2] at h
        exact settling_buildDefinition (settling_within ih expansionLimit) hopen h
      · rcases require_cases id t with ⟨r', hr⟩ | ⟨d, hd, hs, -, -⟩
        · rw [hr] at h
          cases h
          exact ⟨.refl _, hopen⟩
        · exact absurd (by rw [Work.stateOf, hd]; exact congrArg some hs) hopen
    exact fun id => ⟨fun t r s h => (hsucc h).1, fun t r s h => (hsucc h).2⟩

/-- Typing settles what it meets. -/
theorem settling_inferWithin (n : Nat) (scope : Scope) (tree : Node) :
    Settling (fun _ => False) (inferWithin n scope tree) :=
  settling_within (settling_require n) expansionLimit scope tree

end Typer

namespace Work

/-! ### Sessions at rest -/

/-- The sessions between compilations and other uses, each of which has ended. -/
inductive Idle : Work → Prop
  | start (settings : Settings) (backend : Backend) (inline : InlineMacros) (world : World) :
    Idle ⟨{ Session.start settings backend with inline }, world⟩
  | compile {k k' : Work} (h : Idle k) (nesting : Nat) (source text : String)
      {r : Except Diagnostic Compilation} (hrun : k.compileWithin nesting source text = .ok (r, k')) :
    Idle k'
  /-- A tree of any origin is typed. -/
  | infer {k : Work} (h : Idle k) (nesting : Nat) (scope : Scope) (locals : NameMap TypeRef)
      (tree : Node) {p : Node × TypeRef} {t : Typing}
      (hrun : Typer.inferWithin nesting scope tree { work := k, locals } = .ok (p, t)) :
    Idle t.work
  | build {k : Work} (h : Idle k) (nesting id : Nat) {r : Except Diagnostic Unit} {t : Typing}
      (hrun : Typer.require nesting id { work := k } = .ok (r, t)) : Idle t.work
  | template {k : Work} (h : Idle k) (text label : String) (values : List Node) :
    Idle ((SessionM.onScopes ((TypeM.evaluation k.session).template text label values)).run k).2
  | importType {k : Work} (h : Idle k) (name : String) : Idle ((SessionM.importType name).run k).2
  | freshName {k : Work} (h : Idle k) (base : String) : Idle (k.freshName base).2
  /-- Other inline macros are bound. -/
  | bindInline {k : Work} (h : Idle k) (inline : InlineMacros) :
    Idle { k with session := { k.session with inline } }
  /-- Files are written, by the session or by others, and units are shared by others. -/
  | world {k : Work} (h : Idle k) (world : World) : Idle { k with world }

/-- A compilation that ends has failed on its text, or it has typed a tree. -/
theorem compileWithin_ends {k k' : Work} {nesting : Nat} {source text : String}
    {r : Except Diagnostic Compilation}
    (hrun : k.compileWithin nesting source text = .ok (r, k')) :
    (∃ d, Program.parse source text = .error d ∧ r = .error d ∧ k' = k.enter source) ∨
    ∃ scope tree p t c, Typer.inferWithin nesting scope tree { work := k.enter source } =
      .ok (p, t) ∧ t.work.finish c = (r, k') := by
  unfold Work.compileWithin at hrun
  dsimp only at hrun
  split at hrun
  · rename_i d hd
    cases hrun
    exact .inl ⟨d, hd, rfl, rfl⟩
  · split at hrun
    · cases hrun
    · rename_i p t hinfer
      exact .inr ⟨_, _, _, _, _, hinfer, Except.ok.inj hrun⟩

/-- Whether no scope and no expansion is open, and every definition is resolved or has
    failed. -/
structure AtRest (k : Work) : Prop where
  scopes : k.session.scopes = []
  sites : k.session.sites = []
  definitions : ∀ d ∈ k.session.definitions, d.state = .resolved ∨ d.state = .failed

namespace AtRest

variable {k k' : Work}

/-- What settles from rest is at rest. -/
theorem settles (h : k.AtRest) (hk : k.Settles (fun _ => False) k') : k'.AtRest where
  scopes := hk.scopes.trans h.scopes
  sites := hk.sites.trans h.sites
  definitions d hd := by
    obtain ⟨id, hid, rfl⟩ := List.mem_iff_getElem.1 hd
    have hfinal : ∀ b, k.stateOf id = some b → b.isFinal = true := by
      intro b hb
      obtain ⟨d, hd, rfl⟩ := Typer.exists_of_stateOf hb
      rcases h.definitions d (List.mem_of_getElem? hd) with hs | hs <;> rw [hs] <;> rfl
    have hstate : k'.stateOf id = some k'.session.definitions[id].state := by
      rw [stateOf, Session.definition?, List.getElem?_eq_getElem hid]
      rfl
    have := (hk.states id not_false).settled hfinal _ hstate
    revert this
    cases k'.session.definitions[id].state <;> simp [BuildState.isFinal]

/-- A compilation that ends leaves the session at rest, whatever its result. -/
theorem compileWithin (h : k.AtRest) {n : Nat} {source text : String}
    {r : Except Diagnostic Compilation} (hrun : k.compileWithin n source text = .ok (r, k')) :
    k'.AtRest := by
  have henter : (k.enter source).AtRest := ⟨h.scopes, h.sites, h.definitions⟩
  rcases compileWithin_ends hrun with ⟨d, -, -, rfl⟩ | ⟨scope, tree, p, t, c, hinfer, hfinish⟩
  · exact henter
  · have htyped : t.work.AtRest :=
      henter.settles (Typer.settling_inferWithin n scope tree _ p t hinfer)
    obtain ⟨⟨files, hfiles⟩, -⟩ := t.work.finish_cases c
    have hk' : k' = { t.work with world := { t.work.world with files } } := by
      rw [← hfiles, hfinish]
    rw [hk']
    exact ⟨htyped.scopes, htyped.sites, htyped.definitions⟩

end AtRest

/-- **Invariant.** Between its uses a session is at rest. -/
theorem Idle.atRest {k : Work} (h : k.Idle) : k.AtRest := by
  induction h with
  | start settings backend inline world =>
    exact ⟨rfl, rfl, fun d hd => absurd hd List.not_mem_nil⟩
  | compile _ n source text hrun ih => exact ih.compileWithin hrun
  | infer _ n scope locals tree hrun ih =>
    exact ih.settles (Typer.settling_inferWithin n scope tree _ _ _ hrun)
  | build _ n id hrun ih => exact ih.settles ((Typer.settling_require n id).1 _ _ _ hrun)
  | template _ text label values ih =>
    exact ih.settles (.of_eq (Evaluation.keeps_template _ text label values _).symm rfl rfl)
  | importType _ name ih => exact ih.settles (.importType _ name)
  | freshName _ base ih => exact ⟨ih.scopes, ih.sites, ih.definitions⟩
  | bindInline _ inline ih => exact ⟨ih.scopes, ih.sites, ih.definitions⟩
  | world _ world ih => exact ⟨ih.scopes, ih.sites, ih.definitions⟩

/-! ### Compilations that fail -/

/-- Writing descriptors fails for the sake of files only. -/
theorem writeAll_error {root : String} {ds : List Descriptor} {fs fs' : Files} {d : Diagnostic}
    (h : (Descriptor.writeAll root ds).run fs = (.error d, fs')) :
    d.cause.category = .environment := by
  induction ds generalizing fs fs' with
  | nil => cases h
  | cons descriptor ds ih =>
    simp only [Descriptor.writeAll, run_bind_apply, FilesM.makeDirectory, FilesM.write,
      FilesM.change_run] at h
    cases hmake : fs.makeDirectory (Path.ofText root) with
    | error e =>
      rw [hmake] at h
      cases h
      rfl
    | ok fs₁ =>
      rw [hmake] at h
      dsimp only at h
      cases hwrite : fs₁.write (Path.ofText (Descriptor.pathIn root descriptor.name))
          descriptor.encode with
      | error e =>
        rw [hwrite] at h
        cases h
        rfl
      | ok fs₂ =>
        rw [hwrite] at h
        dsimp only at h
        split at h
        · cases h
        · rename_i hrest
          cases h
          exact ih hrest

theorem finish_error {k : Work} {c : Compilation} {d : Diagnostic}
    (h : (k.finish c).1 = .error d) : d.cause.category = .environment := by
  have hfinish : (k.finish c).1 = (SessionM.writeDescriptors.run k).1.map fun _ => c := by
    show ((SessionM.writeDescriptors >>= fun _ => pure c : SessionM Compilation).run k).1 = _
    rw [run_bind_apply]
    rcases SessionM.writeDescriptors.run k with ⟨_ | _, _⟩ <;> rfl
  rw [hfinish] at h
  simp only [SessionM.writeDescriptors, run_bind_apply, run_get_apply] at h
  cases hroot : k.session.settings.destination with
  | none =>
    rw [hroot] at h
    cases h
  | some root =>
    rw [hroot] at h
    have hwrite : (SessionM.onFiles (Descriptor.writeAll root k.session.types.descriptors)).run k =
        (((Descriptor.writeAll root k.session.types.descriptors).run k.world.files).1,
          { k with world := { k.world with files :=
            ((Descriptor.writeAll root k.session.types.descriptors).run k.world.files).2 } }) := rfl
    dsimp only at h
    rw [hwrite] at h
    cases hrun : (Descriptor.writeAll root k.session.types.descriptors).run k.world.files with
    | mk r fs =>
      rw [hrun] at h
      cases r with
      | ok _ => cases h
      | error e =>
        cases h
        exact writeAll_error hrun

theorem compileWithin_of_error (k : Work) (nesting : Nat) {source text : String} {d : Diagnostic}
    (h : Program.parse source text = .error d) :
    k.compileWithin nesting source text = .ok (.error d, k.enter source) := by
  unfold compileWithin
  rw [h]

/-- **Theorem.** A compilation that ends leaves the session at rest: no scope and no expansion is
    open, and every definition is resolved or has failed.  One that fails on its text changes
    nothing but the name of the current source; the only other failures are those of writing
    files. -/
theorem Idle.compile_rests {k k' : Work} (h : k.Idle) {nesting : Nat} {source text : String}
    {r : Except Diagnostic Compilation}
    (hrun : k.compileWithin nesting source text = .ok (r, k')) :
    k'.AtRest ∧ ∀ d, r = .error d → d.cause.category ≠ .environment → k' = k.enter source := by
  refine ⟨h.atRest.compileWithin hrun, ?_⟩
  rintro d rfl hcategory
  rcases compileWithin_ends hrun with ⟨e, -, -, hk'⟩ | ⟨scope, tree, p, t, c, -, hfinish⟩
  · exact hk'
  · exact absurd (finish_error (congrArg Prod.fst hfinish)) hcategory

/-- A macro that needs itself fails, and a text that is no program changes nothing after it. -/
theorem compile_rests_cycle :
    let k : Work := ⟨Session.start {} (.own {}), {}⟩
    ∃ c k₁ d k₂, k.compileWithin 1 "first" "macro def a(); a(); end" = .ok (.ok c, k₁) ∧
      k₁.session.definitions ≠ [] ∧ k₁.AtRest ∧
      k₁.compileWithin 1 "second" ")" = .ok (.error d, k₂) ∧ k₂ = k₁.enter "second" := by
  intro k
  have hidle : k.Idle := .start {} (.own {}) _ {}
  have hfirst : (k.compileWithin 1 "first" "macro def a(); a(); end").toOption.map (fun p =>
      (p.1.toOption.isSome, p.2.session.definitions.length)) = some (true, 1) := by
    decide +kernel
  have hparse : (((Program.parse "second" ")").map fun _ => none).tryCatch fun d =>
      .ok (some d.cause.category)).toOption = some (some .parse) := by
    decide +kernel
  clear_value k
  cases hrun : k.compileWithin 1 "first" "macro def a(); a(); end" with
  | error k₁ =>
    rw [hrun] at hfirst
    cases hfirst
  | ok p =>
    obtain ⟨d | c, k₁⟩ := p
    · rw [hrun] at hfirst
      cases hfirst
    · rw [hrun] at hfirst
      have hmet : k₁.session.definitions.length = 1 := congrArg Prod.snd (Option.some.inj hfirst)
      cases hd : Program.parse "second" ")" with
      | ok n =>
        rw [hd] at hparse
        cases hparse
      | error d =>
        rw [hd] at hparse
        have hsecond := k₁.compileWithin_of_error 1 hd
        have hcategory : d.cause.category = .parse := Option.some.inj (Option.some.inj hparse)
        refine ⟨c, k₁, d, _, rfl, fun hnone => ?_, (hidle.compile_rests hrun).1, hsecond, ?_⟩
        · rw [hnone] at hmet
          cases hmet
        · exact ((hidle.compile 1 _ _ hrun).compile_rests hsecond).2 d rfl (by simp [hcategory])

end Work

end Quasiquote
