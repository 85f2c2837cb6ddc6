import Quasiquote.Proofs.Session.Steps

namespace Quasiquote

/-!
# Congruences — what typing hands down from its steps

Typing is one long walk over trees that is made of a few kinds of steps.  A relation
between computations that sequencing keeps, and that holds between every step and
itself, holds between whole walks; the walks may differ in how they build macros, as
long as the relation holds between the two ways.

* `TypeM.Walk` — such a relation, which the registration of a single definition need not
  respect, and `TypeM.Walk.Defines` — what definitions and bodies respect instead;
* `TypeM.Walk.Builds` — two ways of typing that differ in related builds;
* `TypeM.Walk.rel_infer` — typing a tree in two related ways;
* `TypeM.Walk.rel_within` — the same where expansions are typed in turn;
* `TypeM.Congruence` — a relation that the registration of a definition respects too;
* `TypeM.BuildWalk`, `TypeM.BuildCongruence` — relations that the steps of a build respect
  too, and `TypeM.BuildWalk.rel_buildDefinition`.
-/

namespace TypeM

/-- A relation between computations that sequencing keeps, and that every step of
    typing has to itself, the registration of definitions aside. -/
structure Walk where
  Rel : {α : Type} → TypeM α → TypeM α → Prop
  pure {α : Type} (a : α) : Rel (pure a) (pure a)
  bind {α β : Type} {x y : TypeM α} {f g : α → TypeM β} :
    Rel x y → (∀ a, Rel (f a) (g a)) → Rel (x >>= f) (y >>= g)
  get : Rel (MonadState.get : TypeM Typing) MonadState.get
  /-- Local variables may change in any way, and errors may be collected. -/
  scratch (f : Typing → Typing) (h : ∀ t, (f t).work = t.work)
      (hmore : ∀ t, t.errors <+: (f t).errors) :
    Rel (modify f : TypeM Unit) (modify f)
  declare (scope : Scope) (m : Method) :
    Rel (Typer.defineMethod scope m) (Typer.defineMethod scope m)
  importUnknown (name : String) : Rel (TypeM.importUnknown name) (TypeM.importUnknown name)
  openClass (name : String) (superclass : Option String) (s : Span) :
    Rel (Typer.openClass name superclass s) (Typer.openClass name superclass s)
  expandCall (unit : LoadedUnit) (call : Node) :
    Rel (TypeM.expandCall unit call) (TypeM.expandCall unit call)
  /-- Expansions are recorded below the limit only. -/
  record (e : ExpansionStep) (h : e.depth < Typer.expansionLimit) :
    Rel (modifySession fun k => { k with expansions := k.expansions ++ [e] })
      (modifySession fun k => { k with expansions := k.expansions ++ [e] })

namespace Walk

variable (C : Walk)

/-! ### Steps that only read or collect -/

theorem rel_session : C.Rel session session :=
  C.bind C.get fun _ => C.pure _

theorem rel_collect (d : Diagnostic) : C.Rel (collect d) (collect d) :=
  C.scratch _ (fun _ => rfl) fun _ => List.prefix_append _ _

theorem rel_failureAt (cause : Cause) (s : Span) :
    C.Rel (failureAt cause s) (failureAt cause s) :=
  C.bind C.rel_session fun _ => C.pure _

theorem rel_report (cause : Cause) (s : Span) : C.Rel (report cause s) (report cause s) :=
  C.bind (C.rel_failureAt cause s) fun d => C.bind (C.rel_collect d) fun _ => C.pure _

theorem rel_collectAt (d : Diagnostic) (s : Span) : C.Rel (collectAt d s) (collectAt d s) :=
  C.bind C.rel_session fun _ => C.rel_collect _

theorem rel_assign (name : String) (type : TypeRef) :
    C.Rel (assign name type) (assign name type) :=
  C.scratch _ (fun _ => rfl) fun _ => List.prefix_rfl

theorem rel_withLocals {α : Type} (locals : NameMap TypeRef) {x y : TypeM α} (h : C.Rel x y) :
    C.Rel (withLocals locals x) (withLocals locals y) := by
  have hlocals (f : Typing → NameMap TypeRef) :
      C.Rel (modify fun t => { t with locals := f t } : TypeM Unit)
        (modify fun t => { t with locals := f t }) :=
    C.scratch _ (fun _ => rfl) fun _ => List.prefix_rfl
  refine C.bind C.get fun t => C.bind (hlocals fun _ => locals) fun _ => ?_
  exact C.bind h fun _ => C.bind (hlocals fun _ => t.locals) fun _ => C.pure _

/-! ### Names -/

theorem rel_constantType (name : String) (s : Span) :
    C.Rel (Typer.constantType name s) (Typer.constantType name s) := by
  rw [Typer.constantType_eq]
  refine C.bind (C.importUnknown name) fun r => ?_
  match r with
  | .ok true => exact C.pure _
  | .ok false => exact C.rel_report _ _
  | .error d => exact C.bind (C.rel_collectAt d s) fun _ => C.pure _

theorem rel_methodType (receiver : TypeRef) (name : String) (s : Span) :
    C.Rel (Typer.methodType receiver name s) (Typer.methodType receiver name s) := by
  fun_cases Typer.methodType receiver name s with
  | case1 => exact C.pure _
  | case2 => exact C.pure _
  | case3 owner _ isClass hnew =>
    refine C.bind C.rel_session fun k => ?_
    dsimp only
    split
    · exact C.pure _
    · split
      · exact C.pure _
      · exact C.rel_report _ _

theorem rel_ownMethodType (scope : Scope) (name : String) (s : Span) :
    C.Rel (Typer.ownMethodType scope name s) (Typer.ownMethodType scope name s) := by
  refine C.bind C.rel_session fun k => ?_
  dsimp only
  split
  · exact C.pure _
  · split
    · exact C.pure _
    · exact C.rel_report _ _

/-! ### Two ways of typing -/

/-- Two ways of typing that differ in related builds and related typing of
    expansions. -/
structure Builds (env env' : Typer) : Prop where
  build : ∀ id, C.Rel (env.build id) (env'.build id)
  depth : env.depth = env'.depth
  again : Option.Rel (fun f g => ∀ scope n, C.Rel (f scope n) (g scope n)) env.again env'.again
  limit : env.again.isSome → env.depth < Typer.expansionLimit

variable {C} {env env' : Typer}

theorem rel_buildPending (h : ∀ id, C.Rel (env.build id) (env'.build id))
    (ids : List (Nat × BuildState)) :
    C.Rel (env.buildPending ids) (env'.buildPending ids) := by
  induction ids with
  | nil => exact C.pure _
  | cons p ids ih =>
    obtain ⟨id, state⟩ := p
    unfold Typer.buildPending
    split
    · exact C.pure _
    · split
      · exact C.bind (h id) fun _ => ih
      · exact ih

theorem rel_findMacro (h : ∀ id, C.Rel (env.build id) (env'.build id)) (name : String)
    (argc : Nat) (block : Bool) (s : Span) (owners : List String) :
    C.Rel (env.findMacro name argc block s owners) (env'.findMacro name argc block s owners) := by
  induction owners with
  | nil => exact C.pure _
  | cons owner owners ih =>
    refine C.bind C.rel_session fun k => C.bind (rel_buildPending h _) fun tried => ?_
    split
    · refine C.bind C.rel_session fun k => ?_
      split
      · exact C.pure _
      · split
        · exact C.bind (C.rel_failureAt _ _) fun _ => C.pure _
        · exact ih
    · exact C.bind (C.rel_failureAt _ _) fun _ => C.pure _

theorem rel_expand (h : C.Builds env env') (scope : Scope) (entry : MacroEntry) (call : Node) :
    C.Rel (env.expand scope entry call) (env'.expand scope entry call) := by
  have hrefuse := C.bind (C.rel_report (.buildFailed entry.name "expansion depth exceeded")
    call.span) fun t => C.pure ((⟨call.span, .error "expansion depth exceeded"⟩ : Node), t)
  have hagain := h.again
  unfold Typer.expand
  revert hagain
  cases ha : env.again with
  | none =>
    cases env'.again with
    | none => exact fun _ => hrefuse
    | some g => rintro ⟨⟩
  | some f =>
    cases env'.again with
    | none => rintro ⟨⟩
    | some g =>
      rintro ⟨hfg⟩
      refine C.bind (C.expandCall entry.unit call) fun r => ?_
      match r with
      | .error d => exact C.bind (C.rel_collectAt d _) fun _ => C.pure _
      | .ok expanded =>
        have hlimit := h.limit (by simp [ha])
        rw [← h.depth]
        exact C.bind (C.record _ hlimit) fun _ => hfg scope expanded

theorem rel_inferName (h : C.Builds env env') (scope : Scope) (name : String) (s : Span) :
    C.Rel (env.inferName scope name s) (env'.inferName scope name s) := by
  refine C.bind (rel_findMacro h.build _ _ _ _ _) fun r => ?_
  match r with
  | .error d => exact C.bind (C.rel_collect d) fun _ => C.pure _
  | .ok (some entry) => exact rel_expand h scope entry _
  | .ok none => exact C.bind (C.rel_ownMethodType _ _ _) fun _ => C.pure _

/-! ### Trees -/

variable (C) in
/-- Whether a relation holds for definitions and bodies, where macros are built in two ways. -/
structure Defines (build build' : Nat → TypeM (Except Diagnostic Unit)) : Prop where
  definition {env env' : Typer} (hbuild : env.build = build) (hbuild' : env'.build = build')
      (scope : Scope) (s : Span) (spec : MacroSpec) (known : Option Nat) :
    C.Rel (env.inferDefinition scope s spec known) (env'.inferDefinition scope s spec known)
  body {env env' : Typer} (hbuild : env.build = build) (hbuild' : env'.build = build')
      (scope : Scope) (items : List Node)
      (hitems : ∀ n ∈ items, C.Rel (env.infer scope n) (env'.infer scope n)) :
    C.Rel (Typer.prescan scope items >>= fun ids => env.inferItems scope .nil ids items)
      (Typer.prescan scope items >>= fun ids => env'.inferItems scope .nil ids items)

mutual

/-- Typing a tree in two related ways. -/
theorem rel_infer (h : C.Builds env env') (hd : C.Defines env.build env'.build)
    (scope : Scope) :
    ∀ n : Node, C.Rel (env.infer scope n) (env'.infer scope n)
  | ⟨_, .int _⟩ | ⟨_, .float _⟩ | ⟨_, .str _⟩ | ⟨_, .bool _⟩ | ⟨_, .nil⟩ | ⟨_, .self⟩
  | ⟨_, .field _⟩ | ⟨_, .noop⟩ | ⟨_, .error _⟩ => C.pure _
  | ⟨s, .ident name⟩ => by
    refine C.bind C.get fun t => ?_
    split
    · exact C.pure _
    · exact rel_inferName h scope name s
  | ⟨_, .assign name value⟩ =>
    C.bind (rel_infer h hd scope value) fun p => C.bind (C.rel_assign name p.2) fun _ => C.pure _
  | ⟨_, .fieldAssign _ value⟩ => C.bind (rel_infer h hd scope value) fun _ => C.pure _
  | ⟨s, .constant name⟩ => C.bind (C.rel_constantType name s) fun _ => C.pure _
  | ⟨s, .call target name args block⟩ => by
    refine C.bind (rel_infer h hd scope target) fun p => C.bind (rel_findMacro h.build _ _ _ _ _) fun r => ?_
    match r with
    | .error d => exact C.bind (C.rel_collect d) fun _ => C.pure _
    | .ok (some entry) => exact rel_expand h scope entry _
    | .ok none =>
      refine C.bind (rel_inferAll h hd scope args) fun _ => C.bind (rel_inferBlock h hd scope block) ?_
      exact fun _ => C.bind (C.rel_methodType _ _ _) fun _ => C.pure _
  | ⟨s, .invoke name args block⟩ => by
    refine C.bind (rel_findMacro h.build _ _ _ _ _) fun r => ?_
    match r with
    | .error d => exact C.bind (C.rel_collect d) fun _ => C.pure _
    | .ok (some entry) => exact rel_expand h scope entry _
    | .ok none =>
      refine C.bind (rel_inferAll h hd scope args) fun _ => C.bind (rel_inferBlock h hd scope block) ?_
      exact fun _ => C.bind (C.rel_ownMethodType _ _ _) fun _ => C.pure _
  | ⟨_, .cond test yes no⟩ =>
    C.bind (rel_infer h hd scope test) fun _ => C.bind (rel_infer h hd scope yes) fun _ =>
      C.bind (rel_inferOpt h hd scope no) fun _ => C.pure _
  | ⟨s, .body items⟩ => by
    have hbody := C.bind (hd.body rfl rfl scope items (rel_items h hd scope items)) fun p =>
      C.pure ((⟨s, .body p.1⟩ : Node), p.2)
    rwa [bind_assoc, bind_assoc] at hbody
  | ⟨_, .block _ body _⟩ =>
    C.bind C.get fun _ => C.bind (C.rel_withLocals _ (rel_infer h hd scope body)) fun _ => C.pure _
  | ⟨s, .blockArgument _ _⟩ => C.bind (C.rel_report _ s) fun _ => C.pure _
  | ⟨s, .classDef name superclass body⟩ =>
    C.bind (C.openClass name superclass s) fun _ =>
      C.bind (C.rel_withLocals _ (rel_infer h hd _ body)) fun _ => C.pure _
  | ⟨_, .methodDef _ params _ body⟩ =>
    C.bind (rel_inferParams h hd scope params) fun _ =>
      C.bind (C.rel_withLocals _ (rel_infer h hd scope body)) fun _ =>
        C.bind (C.declare scope _) fun _ => C.pure _
  | ⟨s, .macroDef name args body id⟩ => hd.definition rfl rfl scope s ⟨name, args, body⟩ id
  | ⟨_, .quote body⟩ => C.bind (rel_inferHoles h hd scope body) fun _ => C.pure _
  | ⟨s, .unquote _⟩ => C.bind (C.rel_report _ s) fun _ => C.pure _

theorem rel_inferAll (h : C.Builds env env') (hd : C.Defines env.build env'.build)
    (scope : Scope) :
    ∀ ns : List Node, C.Rel (env.inferAll scope ns) (env'.inferAll scope ns)
  | [] => C.pure _
  | n :: ns => C.bind (rel_infer h hd scope n) fun _ => C.bind (rel_inferAll h hd scope ns) fun _ =>
      C.pure _

theorem rel_inferBlock (h : C.Builds env env') (hd : C.Defines env.build env'.build)
    (scope : Scope) :
    ∀ n : Option Node, C.Rel (env.inferBlock scope n) (env'.inferBlock scope n)
  | none => C.pure _
  | some n => C.bind (rel_infer h hd scope n) fun _ => C.pure _

theorem rel_inferOpt (h : C.Builds env env') (hd : C.Defines env.build env'.build)
    (scope : Scope) :
    ∀ n : Option Node, C.Rel (env.inferOpt scope n) (env'.inferOpt scope n)
  | none => C.pure _
  | some n => C.bind (rel_infer h hd scope n) fun _ => C.pure _

/-- The items of a body. -/
theorem rel_items (h : C.Builds env env') (hd : C.Defines env.build env'.build)
    (scope : Scope) :
    ∀ ns : List Node, ∀ n ∈ ns, C.Rel (env.infer scope n) (env'.infer scope n)
  | [], _, hn => absurd hn List.not_mem_nil
  | m :: ns, n, hn => (List.mem_cons.1 hn).elim (fun heq => heq ▸ rel_infer h hd scope m)
      (rel_items h hd scope ns n)

theorem rel_inferParams (h : C.Builds env env') (hd : C.Defines env.build env'.build)
    (scope : Scope) :
    ∀ ps : List Parameter, C.Rel (env.inferParams scope ps) (env'.inferParams scope ps)
  | [] => C.pure _
  | ⟨_, _, default, _⟩ :: ps => C.bind (rel_inferBlock h hd scope default) fun _ =>
      C.bind (rel_inferParams h hd scope ps) fun _ => C.pure _

theorem rel_inferHoles (h : C.Builds env env') (hd : C.Defines env.build env'.build)
    (scope : Scope) :
    ∀ n : Node, C.Rel (env.inferHoles scope n) (env'.inferHoles scope n)
  | ⟨_, .unquote value⟩ => C.bind (rel_infer h hd scope value) fun _ => C.pure _
  | ⟨_, .assign _ value⟩ => C.bind (rel_inferHoles h hd scope value) fun _ => C.pure _
  | ⟨_, .fieldAssign _ value⟩ => C.bind (rel_inferHoles h hd scope value) fun _ => C.pure _
  | ⟨_, .call target _ args block⟩ => C.bind (rel_inferHoles h hd scope target) fun _ =>
      C.bind (rel_inferHolesAll h hd scope args) fun _ =>
        C.bind (rel_inferHolesOpt h hd scope block) fun _ => C.pure _
  | ⟨_, .invoke _ args block⟩ => C.bind (rel_inferHolesAll h hd scope args) fun _ =>
      C.bind (rel_inferHolesOpt h hd scope block) fun _ => C.pure _
  | ⟨_, .cond test yes no⟩ => C.bind (rel_inferHoles h hd scope test) fun _ =>
      C.bind (rel_inferHoles h hd scope yes) fun _ =>
        C.bind (rel_inferHolesOpt h hd scope no) fun _ => C.pure _
  | ⟨_, .body items⟩ => C.bind (rel_inferHolesAll h hd scope items) fun _ => C.pure _
  | ⟨_, .block _ body _⟩ => C.bind (rel_inferHoles h hd scope body) fun _ => C.pure _
  | ⟨_, .classDef _ _ body⟩ => C.bind (rel_inferHoles h hd scope body) fun _ => C.pure _
  | ⟨_, .methodDef _ params _ body⟩ => C.bind (rel_inferHolesParams h hd scope params) fun _ =>
      C.bind (rel_inferHoles h hd scope body) fun _ => C.pure _
  | ⟨_, .int _⟩ | ⟨_, .float _⟩ | ⟨_, .str _⟩ | ⟨_, .bool _⟩ | ⟨_, .nil⟩ | ⟨_, .self⟩
  | ⟨_, .ident _⟩ | ⟨_, .field _⟩ | ⟨_, .constant _⟩ | ⟨_, .blockArgument _ _⟩
  | ⟨_, .macroDef _ _ _ _⟩ | ⟨_, .quote _⟩ | ⟨_, .noop⟩ | ⟨_, .error _⟩ => C.pure _

theorem rel_inferHolesAll (h : C.Builds env env') (hd : C.Defines env.build env'.build)
    (scope : Scope) :
    ∀ ns : List Node, C.Rel (env.inferHolesAll scope ns) (env'.inferHolesAll scope ns)
  | [] => C.pure _
  | n :: ns => C.bind (rel_inferHoles h hd scope n) fun _ =>
      C.bind (rel_inferHolesAll h hd scope ns) fun _ => C.pure _

theorem rel_inferHolesOpt (h : C.Builds env env') (hd : C.Defines env.build env'.build)
    (scope : Scope) :
    ∀ n : Option Node, C.Rel (env.inferHolesOpt scope n) (env'.inferHolesOpt scope n)
  | none => C.pure _
  | some n => C.bind (rel_inferHoles h hd scope n) fun _ => C.pure _

theorem rel_inferHolesParams (h : C.Builds env env') (hd : C.Defines env.build env'.build)
    (scope : Scope) :
    ∀ ps : List Parameter,
      C.Rel (env.inferHolesParams scope ps) (env'.inferHolesParams scope ps)
  | [] => C.pure _
  | ⟨_, _, default, _⟩ :: ps => C.bind (rel_inferHolesOpt h hd scope default) fun _ =>
      C.bind (rel_inferHolesParams h hd scope ps) fun _ => C.pure _

end

/-- Typing where expansions are typed in turn, with two related ways to build. -/
theorem rel_within {build build' : Nat → TypeM (Except Diagnostic Unit)}
    (h : ∀ id, C.Rel (build id) (build' id)) (hd : C.Defines build build') (left : Nat)
    (scope : Scope) (n : Node) :
    C.Rel (Typer.within build left scope n) (Typer.within build' left scope n) := by
  induction left generalizing scope n with
  | zero =>
    have henv : C.Builds ⟨build, Typer.expansionLimit, none⟩
        ⟨build', Typer.expansionLimit, none⟩ := ⟨h, rfl, .none, by simp⟩
    exact rel_infer henv hd scope n
  | succ left ih =>
    have hlimit : Typer.expansionLimit - (left + 1) < Typer.expansionLimit := by
      have : 0 < Typer.expansionLimit := by decide
      omega
    have henv : C.Builds
        ⟨build, Typer.expansionLimit - (left + 1), some (Typer.within build left)⟩
        ⟨build', Typer.expansionLimit - (left + 1), some (Typer.within build' left)⟩ :=
      ⟨h, rfl, .some ih, fun _ => hlimit⟩
    exact rel_infer henv hd scope n

end Walk

/-! ### Congruences -/

/-- A relation between computations that sequencing keeps, and that every step of
    typing has to itself. -/
structure Congruence extends Walk where
  register (spec : MacroSpec) (owner : String) (span : Span) :
    Rel (Typer.register spec owner span) (Typer.register spec owner span)

namespace Congruence

variable (C : Congruence)

theorem rel_prescan (scope : Scope) (items : List Node) :
    C.Rel (Typer.prescan scope items) (Typer.prescan scope items) := by
  fun_induction Typer.prescan scope items with
  | case1 => exact C.pure _
  | case2 s name args body rest h ih => exact C.bind ih fun _ => C.pure _
  | case3 s name args body rest owner h ih =>
    exact C.bind (C.register _ _ _) fun _ => C.bind ih fun _ => C.pure _
  | case4 s name params returns body rest ih =>
    exact C.bind (C.declare _ _) fun _ => C.bind ih fun _ => C.pure _
  | case5 n rest _ _ ih => exact C.bind ih fun _ => C.pure _

variable {C} {env env' : Typer}

theorem rel_inferDefinition (h : ∀ id, C.Rel (env.build id) (env'.build id)) (scope : Scope) (s : Span)
    (spec : MacroSpec) (known : Option Nat) :
    C.Rel (env.inferDefinition scope s spec known) (env'.inferDefinition scope s spec known) := by
  cases known
  case' none => refine C.bind (C.register spec scope.owner s) fun id => ?_
  case' some id => refine C.bind (C.pure id) fun id => ?_
  all_goals
    refine C.bind (h id) fun r => ?_
    cases r with
    | ok _ => exact C.pure _
    | error d => exact C.bind (C.rel_collect d) fun _ => C.pure _

theorem rel_inferItems (h : ∀ id, C.Rel (env.build id) (env'.build id)) (scope : Scope)
    (t : TypeRef) (ids : List (Option Nat)) (ns : List Node)
    (hns : ∀ n ∈ ns, C.Rel (env.infer scope n) (env'.infer scope n)) :
    C.Rel (env.inferItems scope t ids ns) (env'.inferItems scope t ids ns) := by
  induction ns generalizing t ids with
  | nil => exact C.pure _
  | cons n ns ih =>
    have hn := hns n List.mem_cons_self
    have hrest (t : TypeRef) := ih t ids.tail fun m hm => hns m (List.mem_cons_of_mem n hm)
    unfold Typer.inferItems
    -- an item is a definition with a number, or any tree
    revert hn
    split
    · exact fun _ => C.bind (rel_inferDefinition h _ _ _ _) fun p =>
        C.bind (hrest p.2) fun _ => C.pure _
    · exact fun hn => C.bind hn fun p => C.bind (hrest p.2) fun _ => C.pure _

/-- What registration respects, definitions and bodies respect. -/
theorem defines {build build' : Nat → TypeM (Except Diagnostic Unit)}
    (h : ∀ id, C.Rel (build id) (build' id)) : C.Defines build build' where
  definition hbuild hbuild' scope s spec known :=
    rel_inferDefinition (hbuild ▸ hbuild' ▸ h) scope s spec known
  body hbuild hbuild' scope items hitems :=
    C.bind (C.rel_prescan scope items) fun ids =>
      rel_inferItems (hbuild ▸ hbuild' ▸ h) scope .nil ids items hitems

/-- Typing where expansions are typed in turn, with two related ways to build. -/
theorem rel_within {build build' : Nat → TypeM (Except Diagnostic Unit)}
    (h : ∀ id, C.Rel (build id) (build' id)) (left : Nat) (scope : Scope) (n : Node) :
    C.Rel (Typer.within build left scope n) (Typer.within build' left scope n) :=
  Walk.rel_within h (defines h) left scope n

end Congruence

/-! ### Builds -/

/-- A relation that the steps of the build of one definition respect too. -/
structure BuildWalk (id : Nat) extends Walk where
  /-- Collected errors are put aside while a unit is typed. -/
  aside (f : Typing → Typing) (h : ∀ t, (f t).work = t.work) :
    Rel (modify f : TypeM Unit) (modify f)
  /-- No definition becomes one again that nobody has begun to build. -/
  transition (state : BuildState) (h : state ≠ .unresolved) :
    Rel (Typer.transition id state) (Typer.transition id state)
  extend (d : MacroDefinition) :
    Rel (attempt (Typer.extend id d)) (attempt (Typer.extend id d))
  lower (n : Node) : Rel (attempt (SessionM.onScopes (Artifacts.ofProgram n)))
    (attempt (SessionM.onScopes (Artifacts.ofProgram n)))
  publish (d : MacroDefinition) (unit : String) (files : Artifacts) :
    Rel (Typer.publish id d unit files).run (Typer.publish id d unit files).run
  persist (files : Artifacts) :
    Rel (attempt (Typer.persist files)) (attempt (Typer.persist files))
  fail (e : Diagnostic) :
    Rel (modifySession (·.modifyDefinition id fun d =>
        { d with state := .failed, failure := some e }))
      (modifySession (·.modifyDefinition id fun d =>
        { d with state := .failed, failure := some e }))

namespace Walk

variable (C : Walk)

/-- Steps that may fail are sequenced like others. -/
theorem rel_bind {α β : Type} {x y : ExceptT Diagnostic TypeM α}
    {f g : α → ExceptT Diagnostic TypeM β} (h : C.Rel x.run y.run)
    (hf : ∀ a, C.Rel (f a).run (g a).run) : C.Rel (x >>= f).run (y >>= g).run := by
  refine C.bind h fun r => ?_
  cases r with
  | ok a => exact hf a
  | error e => exact C.pure _

theorem rel_lift {α : Type} {x y : TypeM α} (h : C.Rel x y) :
    C.Rel (ExceptT.lift x : ExceptT Diagnostic TypeM α).run
      (ExceptT.lift y : ExceptT Diagnostic TypeM α).run := by
  have hlift (z : TypeM α) :
      (ExceptT.lift z : ExceptT Diagnostic TypeM α).run = z >>= fun a => return .ok a :=
    map_eq_pure_bind _ _
  rw [hlift, hlift]
  exact C.bind h fun _ => C.pure _

end Walk

namespace BuildWalk

variable {id : Nat} (C : BuildWalk id)

theorem rel_inferUnit {typed typed' : Scope → Node → TypeM (Node × TypeRef)}
    (h : ∀ scope n, C.Rel (typed scope n) (typed' scope n)) (scope : Scope) (n : Node) :
    C.Rel (Typer.inferUnit typed scope n).run (Typer.inferUnit typed' scope n).run := by
  refine C.bind C.get fun outer => C.bind (C.aside _ fun _ => rfl) fun _ => ?_
  refine C.bind (h scope n) fun p => C.bind C.get fun inner => ?_
  refine C.bind (C.aside _ fun _ => rfl) fun _ => ?_
  cases inner.errors with
  | nil => exact C.pure _
  | cons e _ => exact C.pure _

theorem rel_prepare {typed typed' : Scope → Node → TypeM (Node × TypeRef)}
    (h : ∀ scope n, C.Rel (typed scope n) (typed' scope n)) (d : MacroDefinition) :
    C.Rel (Typer.prepare typed id d).run (Typer.prepare typed' id d).run := by
  refine C.rel_bind (C.extend d) fun (unit, n) => ?_
  refine C.rel_bind (C.rel_lift (C.transition _ (by decide))) fun _ => ?_
  refine C.rel_bind (C.rel_lift C.rel_session) fun s => ?_
  refine C.rel_bind (C.rel_inferUnit h _ _) fun n => ?_
  exact C.rel_bind (C.lower n) fun files => C.pure _

/-- The steps of a build, with two related ways to type the unit. -/
theorem rel_buildSteps {typed typed' : Scope → Node → TypeM (Node × TypeRef)}
    (h : ∀ scope n, C.Rel (typed scope n) (typed' scope n)) (d : MacroDefinition) :
    C.Rel (Typer.buildSteps typed id d).run (Typer.buildSteps typed' id d).run := by
  refine C.rel_bind (C.rel_prepare h d) fun (unit, files) => ?_
  exact C.rel_bind (C.publish d unit files) fun _ => C.persist files

theorem rel_conclude (d : MacroDefinition) (r : Except Diagnostic Unit) :
    C.Rel (Typer.conclude id d r) (Typer.conclude id d r) := by
  cases r with
  | ok _ => exact C.bind (C.transition _ (by decide)) fun _ => C.pure _
  | error e => exact C.bind C.rel_session fun s => C.bind (C.fail _) fun _ => C.pure _

/-- A build, with two related ways to type the unit. -/
theorem rel_buildDefinition {typed typed' : Scope → Node → TypeM (Node × TypeRef)}
    (h : ∀ scope n, C.Rel (typed scope n) (typed' scope n)) (d : MacroDefinition) :
    C.Rel (Typer.buildDefinition typed id d) (Typer.buildDefinition typed' id d) := by
  refine C.bind (C.transition .extending (by decide)) fun _ => ?_
  exact C.bind (C.rel_buildSteps h d) (C.rel_conclude d)

end BuildWalk

/-- A congruence that the steps of every build respect too. -/
structure BuildCongruence extends Congruence where
  /-- Collected errors are put aside while a unit is typed. -/
  aside (f : Typing → Typing) (h : ∀ t, (f t).work = t.work) :
    Rel (modify f : TypeM Unit) (modify f)
  /-- No definition becomes one again that nobody has begun to build. -/
  transition (id : Nat) (state : BuildState) (h : state ≠ .unresolved) :
    Rel (Typer.transition id state) (Typer.transition id state)
  extend (id : Nat) (d : MacroDefinition) :
    Rel (attempt (Typer.extend id d)) (attempt (Typer.extend id d))
  lower (n : Node) : Rel (attempt (SessionM.onScopes (Artifacts.ofProgram n)))
    (attempt (SessionM.onScopes (Artifacts.ofProgram n)))
  publish (id : Nat) (d : MacroDefinition) (unit : String) (files : Artifacts) :
    Rel (Typer.publish id d unit files).run (Typer.publish id d unit files).run
  persist (files : Artifacts) :
    Rel (attempt (Typer.persist files)) (attempt (Typer.persist files))
  fail (id : Nat) (e : Diagnostic) :
    Rel (modifySession (·.modifyDefinition id fun d =>
        { d with state := .failed, failure := some e }))
      (modifySession (·.modifyDefinition id fun d =>
        { d with state := .failed, failure := some e }))

namespace BuildCongruence

variable (C : BuildCongruence)

/-- What the steps of every build respect, those of one build respect. -/
def toBuildWalk (id : Nat) : BuildWalk id where
  toWalk := C.toWalk
  aside := C.aside
  transition := C.transition id
  extend := C.extend id
  lower := C.lower
  publish := C.publish id
  persist := C.persist
  fail := C.fail id

/-- The steps of a build, with two related ways to type the unit. -/
theorem rel_buildSteps {typed typed' : Scope → Node → TypeM (Node × TypeRef)}
    (h : ∀ scope n, C.Rel (typed scope n) (typed' scope n)) (id : Nat) (d : MacroDefinition) :
    C.Rel (Typer.buildSteps typed id d).run (Typer.buildSteps typed' id d).run :=
  (C.toBuildWalk id).rel_buildSteps h d

theorem rel_conclude (id : Nat) (d : MacroDefinition) (r : Except Diagnostic Unit) :
    C.Rel (Typer.conclude id d r) (Typer.conclude id d r) :=
  (C.toBuildWalk id).rel_conclude d r

/-- A build, with two related ways to type the unit. -/
theorem rel_buildDefinition {typed typed' : Scope → Node → TypeM (Node × TypeRef)}
    (h : ∀ scope n, C.Rel (typed scope n) (typed' scope n)) (id : Nat) (d : MacroDefinition) :
    C.Rel (Typer.buildDefinition typed id d) (Typer.buildDefinition typed' id d) :=
  (C.toBuildWalk id).rel_buildDefinition h d

end BuildCongruence

end TypeM

end Quasiquote
