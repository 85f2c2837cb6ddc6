import Quasiquote.Proofs.Session.Assertions
import Quasiquote.Proofs.Session.Settling
import Quasiquote.Proofs.Typing.Errors

namespace Quasiquote

/-!
# Resolved definitions — what typing without errors has built

Where a search for a macro builds a definition and the build fails, the failure is dropped.  It
is reported where the definition stands, by whoever has met it.  So typing may end without an
error and leave a new definition that has failed, but only if one that was met before and waited
has failed too.

* `Work.Accounts` — every new definition is resolved, or one that was waiting has failed;
* `Typing.Completes` — definitions settle, errors are only added, and if none is added the new
  definitions are accounted for;
* `Typer.completing_require`, `Typer.completing_inferWithin` — building and typing complete what
  they meet;
* `Work.AtRest.resolved_of_inferWithin` — from rest, typing without errors resolves all that it
  meets.
-/

namespace Work

/-- Whether every new definition is resolved, or one that was waiting has failed, those that are
    `free` aside. -/
def Accounts (free : Nat → Prop) (k k' : Work) : Prop :=
  (∃ id, ¬ free id ∧ k.stateOf id = some .unresolved ∧ k'.stateOf id = some .failed) ∨
  ∀ id, ¬ free id → k.stateOf id = none → k'.stateOf id = none ∨ k'.stateOf id = some .resolved

namespace Accounts

variable {free : Nat → Prop} {k k' k'' : Work}

theorem of_eq (h : k'.session.definitions = k.session.definitions) : Accounts free k k' :=
  .inr fun id _ hnone => .inl ((stateOf_congr h id).trans hnone)

/-- Definitions that settle are accounted for step by step. -/
theorem trans (hs : k.Settles free k') (hs' : k'.Settles free k'') (h : Accounts free k k')
    (h' : Accounts free k' k'') : Accounts free k k'' := by
  rcases h with ⟨id, hid, hopen, hfailed⟩ | hnew
  · -- what has failed stays so
    rcases hs'.states id hid with hsame | ⟨hopen', -⟩
    · exact .inl ⟨id, hid, hopen, hsame.trans hfailed⟩
    · rw [hfailed] at hopen'
      simp at hopen'
  · rcases h' with ⟨id, hid, hopen, hfailed⟩ | hnew'
    · -- what is waiting now was waiting before, or is new and resolved
      rcases hs.states id hid with hsame | ⟨-, hfinal⟩
      · exact .inl ⟨id, hid, hsame ▸ hopen, hfailed⟩
      · rw [hopen] at hfinal
        simp at hfinal
    · refine .inr fun id hid hnone => ?_
      rcases hnew id hid hnone with hnone' | hresolved
      · exact hnew' id hid hnone'
      · rcases hs'.states id hid with hsame | ⟨hopen, -⟩
        · exact .inr (hsame.trans hresolved)
        · rw [hresolved] at hopen
          simp at hopen

end Accounts

end Work

/-! ### Typing -/

/-- Whether definitions settle, errors are only added, and the new definitions are accounted for if
    no error is added. -/
structure Typing.Completes (t s : Typing) : Prop where
  settles : t.work.Settles (fun _ => False) s.work
  errors : t.errors <+: s.errors
  accounts : s.errors = t.errors → t.work.Accounts (fun _ => False) s.work

namespace Typing.Completes

variable {t t' s : Typing}

theorem of_eq (hsettles : t.work.Settles (fun _ => False) s.work) (herrors : t.errors <+: s.errors)
    (hdefinitions : s.work.session.definitions = t.work.session.definitions) : t.Completes s :=
  ⟨hsettles, herrors, fun _ => .of_eq hdefinitions⟩

theorem refl (t : Typing) : t.Completes t := .of_eq (.refl _) List.prefix_rfl rfl

/-- Where no error is added in the end, none is added on the way. -/
theorem errors_eq (h : t.Completes t') (h' : t'.Completes s) (heq : s.errors = t.errors) :
    t'.errors = t.errors ∧ s.errors = t'.errors := by
  have hmid : t'.errors = t.errors :=
    (h.errors.eq_of_length_le (heq ▸ h'.errors.length_le)).symm
  exact ⟨hmid, heq.trans hmid.symm⟩

theorem trans (h : t.Completes t') (h' : t'.Completes s) : t.Completes s where
  settles := h.settles.trans h'.settles
  errors := h.errors.trans h'.errors
  accounts heq := by
    obtain ⟨hfirst, hsecond⟩ := errors_eq h h' heq
    exact .trans h.settles h'.settles (h.accounts hfirst) (h'.accounts hsecond)

end Typing.Completes

namespace TypeM

/-- Whether a computation completes what it meets, if it is not cut off. -/
def Completing {α : Type} (x : TypeM α) : Prop := ∀ t a s, x t = .ok (a, s) → t.Completes s

namespace Completing

variable {α β : Type} {x : TypeM α}

theorem bind {f : α → TypeM β} (hx : Completing x) (hf : ∀ a, Completing (f a)) :
    Completing (x >>= f) := by
  intro t b s h
  rw [bind_apply] at h
  split at h
  · rename_i a t' ha
    exact (hx t a t' ha).trans (hf a t' b s h)
  · cases h

/-- A step that meets nothing. -/
theorem of_eq (hsettling : Settling (fun _ => False) x) (hcollects : Collects x)
    (h : ∀ t a s, x t = .ok (a, s) → s.work.session.definitions = t.work.session.definitions) :
    Completing x :=
  fun t a s hx => .of_eq (hsettling t a s hx) (hcollects t a s hx) (h t a s hx)

end Completing

/-- Every step of typing but the registration of a definition completes what it meets. -/
def completing : Walk where
  Rel x _ := Completing x
  pure a := .of_eq ((settling _).pure a) (collecting.pure a) fun t b s h => by cases h; rfl
  bind := .bind
  get := .of_eq (settling _).get collecting.get fun t a s h => by cases h; rfl
  scratch f h hmore := .of_eq ((settling _).scratch f h hmore) (collecting.scratch f h hmore)
    fun t a s hx => by cases hx; rw [h]
  declare scope m := .of_eq ((settling _).declare scope m) (collecting.declare scope m)
    fun t a s hx => by
      obtain ⟨s', hs', types, hwork⟩ := Typer.defineMethod_apply scope m t
      rw [hs'] at hx
      cases hx
      rw [hwork]
  importUnknown name := .of_eq ((settling _).importUnknown name) (collecting.importUnknown name)
    fun t a s hx => by
      obtain ⟨r, work, hrun, rfl | ⟨-, rfl⟩⟩ := exists_importUnknown name t
      · rw [hrun] at hx
        cases hx
        rfl
      · rw [hrun] at hx
        cases hx
        obtain ⟨types, units, h⟩ := SessionM.keeps_importType name t.work
        show ((SessionM.importType name).run t.work).2.session.definitions = _
        rw [h, Work.definitions_withUnits]
  openClass name superclass s := .of_eq ((settling _).openClass name superclass s)
    (collecting.openClass name superclass s) fun t a s' hx => by
      obtain ⟨es, hrun⟩ := Typer.openClass_apply name superclass s t.work
      rw [hrun t rfl] at hx
      cases hx
      exact t.work.definitions_opened name superclass
  expandCall unit call := .of_eq ((settling _).expandCall unit call)
    (collecting.expandCall unit call) fun t a s hx => by
      rw [expandCall_apply] at hx
      cases hx
      rfl
  record e h := .of_eq ((settling _).record e h) (collecting.record e h)
    fun t a s hx => by cases hx; rfl

end TypeM

namespace Typer

open TypeM

/-! ### Definitions and bodies -/

/-- Whether builds settle and complete what they meet, and those that succeed resolve their
    definition. -/
structure CompletingBuilds (build : Nat → TypeM (Except Diagnostic Unit)) : Prop where
  settles : SettlingBuilds build
  completes (id : Nat) : Completing (build id)
  resolves {id : Nat} {t s : Typing} (h : build id t = .ok (.ok (), s)) :
    s.work.stateOf id = some .resolved

/-- What is resolved stays so. -/
theorem stateOf_resolved {t s : Typing} (h : t.Completes s) {id : Nat}
    (hid : t.work.stateOf id = some .resolved) : s.work.stateOf id = some .resolved := by
  rcases h.settles.states id not_false with hsame | ⟨hopen, -⟩
  · exact hsame.trans hid
  · rw [hid] at hopen
    simp at hopen

/-- What is numbered is accounted for if each number is resolved in the end. -/
theorem Numbers.completes {items : List Node} {ids : List (Option Nat)} {t t₁ s : Typing}
    (h : Numbers items t.work ids t₁.work) (herrors : t₁.errors = t.errors)
    (hsettles : t.work.Settles (fun _ => False) s.work) (h₁ : t₁.Completes s)
    (hresolved : s.errors = t₁.errors → ∀ id, some id ∈ ids → s.work.stateOf id = some .resolved) :
    t.Completes s where
  settles := hsettles
  errors := herrors ▸ h₁.errors
  accounts heq := by
    have heq : s.errors = t₁.errors := heq.trans herrors.symm
    rcases h₁.accounts heq with ⟨id, hid, hopen, hfailed⟩ | hnew
    · rcases h.states id with hsame | ⟨hmem, -, -⟩
      · exact .inl ⟨id, hid, hsame ▸ hopen, hfailed⟩
      · rw [hresolved heq id hmem] at hfailed
        cases hfailed
    · refine .inr fun id hid hnone => ?_
      rcases h.states id with hsame | ⟨hmem, -, -⟩
      · exact hnew id hid (hsame.trans hnone)
      · exact .inr (hresolved heq id hmem)

variable {env : Typer}

/-- A definition with a number is resolved, or its failure is reported. -/
theorem completes_inferDefinition_some (hbuild : CompletingBuilds env.build) (scope : Scope)
    (s : Span) (spec : MacroSpec) {id : Nat} {t t' : Typing} {p : Node × TypeRef}
    (h : env.inferDefinition scope s spec (some id) t = .ok (p, t')) :
    t.Completes t' ∧ (t'.errors = t.errors → t'.work.stateOf id = some .resolved) := by
  unfold inferDefinition at h
  dsimp only at h
  rw [TypeM.bind_apply, TypeM.pure_apply] at h
  dsimp only at h
  rw [TypeM.bind_apply] at h
  split at h
  · rename_i r t₁ hrun
    have hcompletes := hbuild.completes id t r t₁ hrun
    cases r with
    | ok _ =>
      cases h
      exact ⟨hcompletes, fun _ => hbuild.resolves hrun⟩
    | error d =>
      cases h
      have hreported : t₁.Completes { t₁ with errors := t₁.errors ++ [d] } :=
        .of_eq (.refl _) (List.prefix_append _ _) rfl
      refine ⟨hcompletes.trans hreported, fun heq => ?_⟩
      have hsame := (hcompletes.errors_eq hreported heq).2
      simp at hsame
  · cases h

theorem completing_inferDefinition (hbuild : CompletingBuilds env.build) (scope : Scope)
    (s : Span) (spec : MacroSpec) (known : Option Nat) :
    Completing (env.inferDefinition scope s spec known) := by
  intro t p t' h
  cases known with
  | some id => exact (completes_inferDefinition_some hbuild scope s spec h).1
  | none =>
    have hsettles := (settles_inferDefinition hbuild.settles scope s spec none h).1
    obtain ⟨t₁, hregister, ht₁⟩ := register_apply spec scope.owner s t
    have herrors : t₁.errors = t.errors := by
      cases hregister
      rfl
    have h : (register spec scope.owner s >>= fun id =>
        env.inferDefinition scope s spec (some id)) t = .ok (p, t') := h
    rw [TypeM.bind_apply, hregister] at h
    obtain ⟨hcompletes, hresolved⟩ := completes_inferDefinition_some hbuild scope s spec h
    have hnumbers : Numbers [⟨s, .macroDef spec.name spec.args spec.body none⟩] t.work
        [some t.work.session.definitions.length] t₁.work := (Numbers.nil _).meet rfl ht₁
    refine hnumbers.completes herrors hsettles hcompletes fun heq id hid => ?_
    cases List.mem_singleton.1 hid
    exact hresolved heq

/-- The items of a body are completed, and each definition among them that has a number is
    resolved, or its failure is reported. -/
theorem completes_inferItems (hbuild : CompletingBuilds env.build) (scope : Scope)
    {items : List Node} {ids : List (Option Nat)}
    (hdefinitions : List.Forall₂ (fun n o => o.isSome = true →
      ∃ s name args body, n = (⟨s, .macroDef name args body none⟩ : Node)) items ids)
    (hitems : ∀ n ∈ items, Completing (env.infer scope n)) (ty : TypeRef)
    {t s : Typing} {p : List Node × TypeRef}
    (h : env.inferItems scope ty ids items t = .ok (p, s)) :
    t.Completes s ∧ (s.errors = t.errors → ∀ id, some id ∈ ids →
      s.work.stateOf id = some .resolved) := by
  induction hdefinitions generalizing ty t s p with
  | nil =>
    rw [inferItems] at h
    cases h
    exact ⟨.refl _, fun _ id hid => by cases hid⟩
  | @cons n o items ids hdefinition _ ih =>
    -- the rest of the body keeps what the first item has resolved
    have hrest {x : TypeM (Node × TypeRef)}
        (hx : ∀ q s₁, x t = .ok (q, s₁) → t.Completes s₁ ∧
          (s₁.errors = t.errors → ∀ id, o = some id → s₁.work.stateOf id = some .resolved))
        (h : (x >>= fun q => env.inferItems scope q.2 ids items >>= fun r =>
          pure (q.1 :: r.1, r.2)) t = .ok (p, s)) :
        t.Completes s ∧ (s.errors = t.errors → ∀ id, some id ∈ o :: ids →
          s.work.stateOf id = some .resolved) := by
      rw [TypeM.bind_apply] at h
      split at h
      · rename_i q s₁ hq
        obtain ⟨hfirst, hresolved⟩ := hx q s₁ hq
        rw [TypeM.bind_apply] at h
        split at h
        · rename_i hq'
          cases h
          obtain ⟨hlater, hmore⟩ := ih (fun m hm => hitems m (List.mem_cons_of_mem _ hm)) q.2 hq'
          refine ⟨hfirst.trans hlater, fun heq id hid => ?_⟩
          obtain ⟨heq₁, heq₂⟩ := hfirst.errors_eq hlater heq
          rcases List.mem_cons.1 hid with hid | hid
          · exact stateOf_resolved hlater (hresolved heq₁ id hid.symm)
          · exact hmore heq₂ id hid
        · cases h
      · cases h
    have hitem := hitems n List.mem_cons_self
    unfold inferItems at h
    cases o with
    | some id =>
      obtain ⟨at', name, args, body, rfl⟩ := hdefinition rfl
      refine hrest (fun q s₁ hq => ?_) h
      obtain ⟨hcompletes, hresolved⟩ := completes_inferDefinition_some hbuild scope at' _ hq
      exact ⟨hcompletes, fun heq other hother => by cases hother; exact hresolved heq⟩
    | none =>
      split at h
      · rename_i heq
        cases heq
      · exact hrest (fun q s₁ hq => ⟨hitem t q s₁ hq, fun _ id hid => by cases hid⟩) h

/-- The definitions of a body are met without a word. -/
theorem spares_prescan (scope : Scope) (items : List Node) : Spares (prescan scope items) := by
  have hpure {α : Type} (a : α) : Spares (pure a : TypeM α) := .of_work fun t => ⟨a, t.work, rfl⟩
  fun_induction prescan scope items with
  | case1 => exact hpure []
  | case2 s name args body rest hnone ih => exact ih.bind fun _ => hpure _
  | case3 s name args body rest owner hsome ih =>
    have hregister : Spares (register ⟨name, args, body⟩ owner s) := .of_work fun t => ⟨_, _, rfl⟩
    exact hregister.bind fun _ => ih.bind fun _ => hpure _
  | case4 s name params returns body rest ih =>
    refine Spares.bind (fun t a t' h => ?_) fun _ => ih.bind fun _ => hpure _
    unfold defineMethod at h
    revert h
    cases scope.selfType.owner with
    | none =>
      intro h
      cases h
      rfl
    | some owner =>
      intro h
      cases h
      rfl
  | case5 n rest _ _ ih => exact ih.bind fun _ => hpure _

/-- What builds complete, definitions and bodies complete. -/
theorem completing_defines {build : Nat → TypeM (Except Diagnostic Unit)}
    (hbuild : CompletingBuilds build) : completing.Defines build build where
  definition henv henv' scope s spec known := by
    rename_i env env'
    exact completing_inferDefinition (henv ▸ hbuild) scope s spec known
  body henv henv' scope items hitems := by
    rename_i env env'
    intro t p s h
    have hsettling : (settling fun _ => False).Rel
        (prescan scope items >>= fun ids => env.inferItems scope .nil ids items)
        (prescan scope items >>= fun ids => env.inferItems scope .nil ids items) :=
      (settling_defines hbuild.settles).body henv henv scope items fun n hn t p s h =>
        (hitems n hn t p s h).settles
    have hsettles := hsettling t p s h
    obtain ⟨ids, t₁, hprescan, hnumbers⟩ := numbers_prescan scope items t
    rw [TypeM.bind_apply, hprescan] at h
    obtain ⟨hcompletes, hresolved⟩ :=
      completes_inferItems (henv ▸ hbuild) scope hnumbers.definitions hitems .nil h
    exact hnumbers.completes (spares_prescan scope items t ids t₁ hprescan) hsettles hcompletes
      hresolved

/-- Typing completes what it meets, if builds do. -/
theorem completing_within {build : Nat → TypeM (Except Diagnostic Unit)}
    (hbuild : CompletingBuilds build) (left : Nat) (scope : Scope) (n : Node) :
    Completing (within build left scope n) :=
  Walk.rel_within (C := completing) hbuild.completes (completing_defines hbuild) left scope n

/-! ### Builds -/

end Typer

/-- Whether all definitions but one are as they were. -/
def Work.Apart (id : Nat) (k k' : Work) : Prop :=
  ∀ other, other ≠ id → k'.stateOf other = k.stateOf other

namespace Work.Apart

variable {id : Nat} {k k' k'' : Work}

theorem of_eq (h : k'.session.definitions = k.session.definitions) : Apart id k k' :=
  fun other _ => stateOf_congr h other

theorem trans (h : Apart id k k') (h' : Apart id k' k'') : Apart id k k'' :=
  fun other hne => (h' other hne).trans (h other hne)

theorem modify (k : Work) (id : Nat) (f : MacroDefinition → MacroDefinition) :
    Apart id k { k with session := k.session.modifyDefinition id f } := by
  intro other hne
  exact congrArg (Option.map MacroDefinition.state) (Session.definition?_modify_ne rfl hne)

theorem noting (k : Work) (id : Nat) (state : BuildState) : Apart id k (k.noting id state) :=
  .modify k id _

/-- What is accounted for stays so if only a definition changes that is left aside. -/
theorem accounts (h : k.Accounts (· = id) k') (h' : Apart id k' k'') : k.Accounts (· = id) k'' := by
  rcases h with ⟨other, hne, hopen, hfailed⟩ | hnew
  · exact .inl ⟨other, hne, hopen, (h' other hne).trans hfailed⟩
  · refine .inr fun other hne hnone => ?_
    rw [h' other hne]
    exact hnew other hne hnone

end Work.Apart

namespace Typer

open TypeM

variable {typed : Scope → Node → TypeM (Node × TypeRef)} {id : Nat} {k₀ : Work}

/-- A unit that is typed without errors accounts for what it meets. -/
theorem accounts_inferUnit (htyped : ∀ scope n, Completing (typed scope n)) (scope : Scope) (n : Node) :
    Holds (fun k => k₀.Apart id k ∧ k.stateOf id ≠ some .unresolved) (inferUnit typed scope n)
      (fun _ k => k₀.Accounts (· = id) k) (fun _ _ => True) (fun _ => True) := by
  intro t ht
  have hcompletes := htyped scope n { t with locals := {}, errors := [] }
  simp only [inferUnit, ExceptT.run, ExceptT.mk, TypeM.bind_apply, TypeM.get_apply,
    TypeM.modify_apply]
  revert hcompletes
  rcases typed scope n { t with locals := {}, errors := [] } with s | ⟨p, s⟩
  · exact fun _ => trivial
  · intro hcompletes
    dsimp only
    cases hs : s.errors with
    | cons e _ => trivial
    | nil =>
      rcases (hcompletes p s rfl).accounts hs with ⟨other, -, hopen, hfailed⟩ | hnew
      · have hne : other ≠ id := fun heq => ht.2 (heq ▸ hopen)
        exact .inl ⟨other, hne, (ht.1 other hne) ▸ hopen, hfailed⟩
      · refine .inr fun other hne hnone => hnew other not_false ?_
        exact (ht.1 other hne).trans hnone

theorem accounts_prepare (htyped : ∀ scope n, Completing (typed scope n)) (d : MacroDefinition) :
    Holds (k₀.Apart id) (prepare typed id d) (fun _ k => k₀.Accounts (· = id) k) (fun _ _ => True)
      (fun _ => True) := by
  refine .bind (Q := fun _ => k₀.Apart id) (.step ?_ fun _ _ _ _ => trivial) ?_
  · intro k p hk _
    rw [extend_run]
    exact hk.trans (.modify _ id _)
  rintro ⟨unit, n⟩
  let P (k : Work) : Prop := k₀.Apart id k ∧ k.stateOf id ≠ some .unresolved
  refine .bind (Q := fun _ => P) (.note id .compiling fun k hk => ?_) fun _ => ?_
  · refine ⟨hk.trans (.noting k id _), ?_⟩
    show ((k.session.definitions.modify id _)[id]?).map MacroDefinition.state ≠ _
    rw [List.getElem?_modify_eq]
    cases k.session.definitions[id]? <;> simp
  refine .bind (Q := fun _ => P) (.lift fun t ht => ⟨_, t, rfl, ht⟩) fun s => ?_
  refine .bind (accounts_inferUnit htyped _ n) fun n => ?_
  refine .bind (Q := fun _ k => k₀.Accounts (· = id) k) (.step ?_ fun _ _ _ _ => trivial) fun files => ?_
  · exact fun k _ hk _ => Work.Apart.accounts hk (.of_eq rfl)
  · exact .pure _ fun k hk => hk

/-- A build whose steps succeed accounts for what it meets. -/
theorem accounts_buildSteps (htyped : ∀ scope n, Completing (typed scope n)) (d : MacroDefinition) :
    Holds (k₀.Apart id) (buildSteps typed id d) (fun _ k => k₀.Accounts (· = id) k)
      (fun _ _ => True) (fun _ => True) := by
  let Q (k : Work) : Prop := k₀.Accounts (· = id) k
  have hsame {k k' : Work} (hk : Q k) (h : k'.session.definitions = k.session.definitions) : Q k' :=
    Work.Apart.accounts hk (.of_eq h)
  have hnote (state : BuildState) : Holds Q (ExceptT.lift (transition id state)) (fun _ => Q)
      (fun _ _ => True) (fun _ => True) :=
    .note id state fun k hk => Work.Apart.accounts hk (.noting k id state)
  refine .bind (accounts_prepare htyped d) ?_
  rintro ⟨unit, files⟩
  refine .bind (Q := fun _ => Q) ?_ fun _ => .step (fun k _ hk _ => ?_) fun _ _ _ _ => trivial
  · -- the unit is loaded and the macro is registered
    unfold publish
    refine .bind (hnote .loading) fun _ => ?_
    refine .bind (Q := fun _ => Q) (.step (fun k u hk _ => ?_) fun _ _ _ _ => trivial) fun u => ?_
    · obtain ⟨units, h⟩ := SessionM.keeps_loadUnit unit files k
      exact hsame hk (by rw [h, Work.definitions_withUnits])
    refine .bind (hnote .registering) fun _ => .step (fun k _ hk _ => ?_) fun _ _ _ _ => trivial
    exact hsame hk (definitions_registerMacro d unit u k)
  · exact hsame hk (by rw [session_persist])

/-- The outcome of a build is that of its definition. -/
theorem stateOf_conclude {d : MacroDefinition} {r r' : Except Diagnostic Unit} {t s : Typing}
    (h : conclude id d r t = .ok (r', s)) {b : BuildState} (hb : s.work.stateOf id = some b) :
    b = if r' = .ok () then .resolved else .failed := by
  have hmodify (f : MacroDefinition → MacroDefinition) (state : BuildState)
      (hf : ∀ d, (f d).state = state)
      (hb : ((t.work.session.definitions.modify id f)[id]?).map MacroDefinition.state = some b) :
      b = state := by
    rw [List.getElem?_modify_eq] at hb
    cases hd : t.work.session.definitions[id]? with
    | none =>
      rw [hd] at hb
      cases hb
    | some d =>
      rw [hd] at hb
      cases hb
      exact hf d
  cases r with
  | ok _ =>
    cases h
    exact hmodify _ .resolved (fun _ => rfl) hb
  | error e =>
    cases h
    exact hmodify _ .failed (fun _ => rfl) hb

/-- A build accounts for what it meets: it resolves its definition, or that was waiting and has
    failed. -/
theorem accounts_buildDefinition (htyped : ∀ scope n, Completing (typed scope n))
    {d : MacroDefinition} {t s : Typing} {r : Except Diagnostic Unit}
    (hopen : t.work.stateOf id = some .unresolved) (h : buildDefinition typed id d t = .ok (r, s)) :
    t.work.Accounts (fun _ => False) s.work ∧
      (r = .ok () → s.work.stateOf id = some .resolved) := by
  have hstate : s.work.stateOf id = some (if r = .ok () then .resolved else .failed) := by
    obtain ⟨hsettles, hclosed⟩ := settling_buildDefinition
      (fun scope n t p s hp => (htyped scope n t p s hp).settles) hopen h
    have hmet : ∃ b, s.work.stateOf id = some b := by
      rcases hsettles.states id not_false with hsame | ⟨-, hfinal | hfinal⟩
      · exact absurd (hsame.trans hopen) hclosed
      · exact ⟨_, hfinal⟩
      · exact ⟨_, hfinal⟩
    obtain ⟨b, hb⟩ := hmet
    rw [buildDefinition_apply] at h
    split at h
    · rw [hb, stateOf_conclude h hb]
    · cases h
  cases r with
  | error e => exact ⟨.inl ⟨id, not_false, hopen, by simpa using hstate⟩, fun h => by cases h⟩
  | ok u =>
    refine ⟨?_, fun _ => by simpa using hstate⟩
    have hsteps : Holds (t.work.Apart id) (buildSteps typed id d) _ _ _ := accounts_buildSteps htyped d
    have hsteps := hsteps { t with work := t.work.noting id .extending } (.noting t.work id _)
    rw [buildDefinition_apply] at h
    revert hsteps h
    rcases (buildSteps typed id d).run { t with work := t.work.noting id .extending } with
      s₁ | ⟨e | v, s₁⟩
    · exact fun h _ => by cases h
    · exact fun h _ => by cases h
    · intro h hsteps
      cases h
      have hsteps : t.work.Accounts (· = id) (s₁.work.noting id .resolved) :=
        Work.Apart.accounts hsteps (.noting s₁.work id _)
      rcases hsteps with ⟨other, -, hdebt⟩ | hnew
      · exact .inl ⟨other, not_false, hdebt⟩
      · refine .inr fun other _ hnone => hnew other (fun heq => ?_) hnone
        rw [heq, hopen] at hnone
        cases hnone

/-- A definition that does not wait keeps its outcome. -/
theorem require_of_not_unresolved (n : Nat) {t : Typing} (h : t.work.stateOf id ≠ some .unresolved) :
    ∃ r, require n id t = .ok (r, t) ∧ (r = .ok () → t.work.stateOf id = some .resolved) := by
  unfold require
  simp only [TypeM.bind_apply, TypeM.session_apply]
  cases hd : t.work.session.definition? id with
  | none => exact ⟨_, rfl, fun h => by cases h⟩
  | some d =>
    have hstate : t.work.stateOf id = some d.state := by
      rw [Work.stateOf, hd]
      rfl
    dsimp only
    cases hs : d.state
    case unresolved => exact absurd (hstate.trans (congrArg some hs)) h
    case resolved => exact ⟨_, rfl, fun _ => hstate.trans (congrArg some hs)⟩
    all_goals exact ⟨_, rfl, fun h => by cases h⟩

/-- Building completes what it meets. -/
theorem completing_require (n : Nat) : CompletingBuilds (require n) := by
  have hrequire : ∀ id t r s, require n id t = .ok (r, s) →
      t.Completes s ∧ (r = .ok () → s.work.stateOf id = some .resolved) := by
    induction n with
    | zero =>
      intro id t r s h
      by_cases hopen : t.work.stateOf id = some .unresolved
      · obtain ⟨d, hd, hs⟩ := exists_of_stateOf hopen
        rw [(require_unresolved hd hs).1] at h
        cases h
      · obtain ⟨r', hr, hresolved⟩ := require_of_not_unresolved 0 hopen
        rw [hr] at h
        cases h
        exact ⟨.refl _, hresolved⟩
    | succ n ih =>
      intro id t r s h
      by_cases hopen : t.work.stateOf id = some .unresolved
      · have hbuilds : CompletingBuilds (require n) :=
          ⟨settling_require n, fun id t r s h => (ih id t r s h).1, fun h => (ih _ _ _ _ h).2 rfl⟩
        have hsettles := (settling_require (n + 1) id).1 t r s h
        have herrors := spares_require (n + 1) id t r s h
        obtain ⟨d, hd, hs⟩ := exists_of_stateOf hopen
        rw [(require_unresolved hd hs).2] at h
        obtain ⟨haccounts, hresolved⟩ :=
          accounts_buildDefinition (completing_within hbuilds expansionLimit) hopen h
        exact ⟨⟨hsettles, herrors ▸ List.prefix_rfl, fun _ => haccounts⟩, hresolved⟩
      · obtain ⟨r', hr, hresolved⟩ := require_of_not_unresolved (n + 1) hopen
        rw [hr] at h
        cases h
        exact ⟨.refl _, hresolved⟩
  exact ⟨settling_require n, fun id t r s h => (hrequire id t r s h).1,
    fun h => (hrequire _ _ _ _ h).2 rfl⟩

/-- Typing completes what it meets. -/
theorem completing_inferWithin (n : Nat) (scope : Scope) (tree : Node) :
    Completing (inferWithin n scope tree) :=
  completing_within (completing_require n) expansionLimit scope tree

end Typer

/-- **Lemma.** From rest, typing without errors resolves every definition that it meets. -/
theorem Work.AtRest.resolved_of_inferWithin {n : Nat} {scope : Scope} {tree : Node}
    {t s : Typing} {p : Node × TypeRef} (h : t.work.AtRest)
    (hrun : Typer.inferWithin n scope tree t = .ok (p, s)) (herrors : s.errors = t.errors) {id : Nat}
    (hid : t.work.session.definitions.length ≤ id) {d : MacroDefinition}
    (hd : s.work.session.definition? id = some d) : d.state = .resolved := by
  have hstate : s.work.stateOf id = some d.state := by
    rw [Work.stateOf, hd]
    rfl
  have hnone : t.work.stateOf id = none := by
    rw [Work.stateOf, Session.definition?, List.getElem?_eq_none hid]
    rfl
  rcases (Typer.completing_inferWithin n scope tree t p s hrun).accounts herrors with
    ⟨other, -, hopen, -⟩ | hnew
  · -- nothing waits in a session at rest
    obtain ⟨d', hd', hs⟩ := Typer.exists_of_stateOf hopen
    have hfinal := h.definitions d' (List.mem_of_getElem? hd')
    rw [hs] at hfinal
    simp at hfinal
  · rcases hnew id not_false hnone with hs | hs
    · rw [hs] at hstate
      cases hstate
    · exact Option.some.inj (hstate.symm.trans hs)

end Quasiquote
