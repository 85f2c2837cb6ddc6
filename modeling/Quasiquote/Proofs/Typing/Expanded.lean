import Quasiquote.Proofs.Node.Unquoted
import Quasiquote.Proofs.Session.Runs
import Quasiquote.Proofs.Typing.Errors

namespace Quasiquote

/-!
# Expanded trees — what typing leaves

Typing visits all code outside quoted bodies.  Macro calls are replaced, definitions vanish,
and whatever cannot stand in a program is reported.  Markers are passed on without a word, since
whoever made them has reported them; an expansion may hold one that was reported long ago.

* `Form.mayEnter`, `Form.mayLeave` — the forms that typing is given and those that it leaves,
  where markers are tolerated or not;
* `TypeM.Yields` — what holds of the results of computations that report nothing;
* `Typer.yields_inferWithin` — typing that reports nothing leaves expanded trees.
-/

namespace Form

/-- Whether a form may stand in the code that is typed. -/
def mayEnter (markers : Bool) : Form → Bool
  | .error _ => markers
  | _ => true

/-- Whether a form may stand in code that is typed and in which nothing is left to do. -/
def mayLeave (markers : Bool) : Form → Bool
  | .macroDef _ _ _ _ | .unquote _ | .blockArgument _ _ => false
  | f => f.mayEnter markers

end Form

namespace Node

/-- Whether a tree is code to be typed. -/
def MayEnter (markers : Bool) (n : Node) : Prop := n.Holds fun f => f.mayEnter markers = true

/-- Whether a tree is code in which nothing is left to do. -/
def MayLeave (markers : Bool) (n : Node) : Prop := n.Holds fun f => f.mayLeave markers = true

/-- Code to be typed holds no markers unless these are tolerated. -/
theorem mayEnter_iff {markers : Bool} {n : Node} :
    n.MayEnter markers ↔ (markers = false → n.MarkerFree) := by
  cases markers with
  | true =>
    refine iff_of_true (fun m _ => ?_) (fun h => by cases h)
    obtain ⟨s, f⟩ := m
    cases f <;> rfl
  | false =>
    have hform (f : Form) : f.mayEnter false = true ↔ f.isMarker = false := by
      cases f <;> simp [Form.mayEnter, Form.isMarker]
    simp only [MayEnter, MarkerFree, Holds, hform, forall_const]

end Node

namespace TypeM

/-! ### Computations that report nothing -/

/-- What is kept by two congruences. -/
def Congruence.and (C D : Congruence) : Congruence where
  Rel x y := C.Rel x y ∧ D.Rel x y
  pure a := ⟨C.pure a, D.pure a⟩
  bind h hf := ⟨C.bind h.1 fun a => (hf a).1, D.bind h.2 fun a => (hf a).2⟩
  get := ⟨C.get, D.get⟩
  scratch f h hmore := ⟨C.scratch f h hmore, D.scratch f h hmore⟩
  declare scope m := ⟨C.declare scope m, D.declare scope m⟩
  importUnknown name := ⟨C.importUnknown name, D.importUnknown name⟩
  openClass name superclass s :=
    ⟨C.openClass name superclass s, D.openClass name superclass s⟩
  expandCall unit call := ⟨C.expandCall unit call, D.expandCall unit call⟩
  record e h := ⟨C.record e h, D.record e h⟩
  register spec owner span := ⟨C.register spec owner span, D.register spec owner span⟩

/-- Computations that take steps and only add errors. -/
def growing : Congruence := running.toCongruence.and collecting

variable {markers : Bool} {α β : Type} {P : α → Prop} {Q : β → Prop}

/-- Whether errors and recorded expansions are only added, and a result has a property if no
    error is added and no new expansion shows a marker that is not tolerated. -/
def Yields (markers : Bool) (x : TypeM α) (P : α → Prop) : Prop :=
  ∀ t a t', x t = .ok (a, t') → ∃ errors expansions, t'.errors = t.errors ++ errors ∧
    t'.work.session.expansions = t.work.session.expansions ++ expansions ∧
    (errors = [] → (markers = false → ∀ e ∈ expansions, ¬ ShowsMarker e.expansion) → P a)

namespace Yields

variable {x : TypeM α}

theorem grown (h : growing.Rel x x) : Yields markers x fun _ => True := by
  obtain ⟨hruns, hcollects⟩ := h
  intro t a t' hx
  obtain ⟨errors, herrors⟩ := hcollects t a t' hx
  have hrun : t.work.Run t'.work := by
    have := hruns t
    rwa [hx] at this
  obtain ⟨expansions, hexpansions, -⟩ := hrun.exists_expansions
  exact ⟨errors, expansions, herrors.symm, hexpansions, fun _ _ => trivial⟩

theorem pure {a : α} (h : P a) : Yields markers (Pure.pure a) P := by
  intro t b t' hx
  cases hx
  exact ⟨[], [], (List.append_nil _).symm, (List.append_nil _).symm, fun _ _ => h⟩

/-- What is done next may rely on the results so far. -/
theorem bind {f : α → TypeM β} (hx : Yields markers x P)
    (hf : ∀ a, Yields markers (f a) fun b => P a → Q b) : Yields markers (x >>= f) Q := by
  intro t b t'' h
  rw [bind_apply] at h
  split at h
  · rename_i a t' ha
    obtain ⟨errors, expansions, herrors, hexpansions, hP⟩ := hx t a t' ha
    obtain ⟨errors', expansions', herrors', hexpansions', hQ⟩ := hf a t' b t'' h
    refine ⟨errors ++ errors', expansions ++ expansions', ?_, ?_, fun hnone hclean => ?_⟩
    · rw [herrors', herrors, List.append_assoc]
    · rw [hexpansions', hexpansions, List.append_assoc]
    · obtain ⟨rfl, rfl⟩ := List.append_eq_nil_iff.1 hnone
      refine hQ rfl (fun hm e he => ?_) (hP rfl fun hm e he => ?_)
      · exact hclean hm e (List.mem_append_right _ he)
      · exact hclean hm e (List.mem_append_left _ he)
  · cases h

theorem mono {P' : α → Prop} (hx : Yields markers x P) (h : ∀ a, P a → P' a) :
    Yields markers x P' := by
  intro t a t' ha
  obtain ⟨errors, expansions, herrors, hexpansions, hP⟩ := hx t a t' ha
  exact ⟨errors, expansions, herrors, hexpansions, fun hnone hclean => h a (hP hnone hclean)⟩

/-- A step after which nothing needs to be known. -/
theorem step {f : α → TypeM β} (hx : growing.Rel x x) (hf : ∀ a, Yields markers (f a) Q) :
    Yields markers (x >>= f) Q :=
  .bind (.grown hx) fun a => (hf a).mono fun _ hb _ => hb

theorem collect (d : Diagnostic) : Yields markers (TypeM.collect d) fun _ => False := by
  intro t a t' hx
  cases hx
  exact ⟨[d], [], rfl, (List.append_nil _).symm, fun h => by cases h⟩

/-- Nothing needs to hold of what is answered after a report. -/
theorem after {f : α → TypeM β} (hx : Yields markers x fun _ => False)
    (hf : ∀ a, growing.Rel (f a) (f a)) : Yields markers (x >>= f) Q :=
  .bind hx fun a => (grown (hf a)).mono fun _ _ hfalse => hfalse.elim

theorem report (cause : Cause) (s : Span) : Yields markers (TypeM.report cause s) fun _ => False :=
  .step (growing.rel_failureAt cause s) fun d => .after (.collect d) fun _ => growing.pure _

theorem collectAt (d : Diagnostic) (s : Span) :
    Yields markers (TypeM.collectAt d s) fun _ => False :=
  .step growing.rel_session fun _ => .collect _

/-- An expansion that is recorded shows no marker that is not tolerated. -/
theorem record (e : ExpansionStep) :
    Yields markers (modifySession fun k => { k with expansions := k.expansions ++ [e] })
      fun _ => markers = false → ¬ ShowsMarker e.expansion := by
  intro t a t' hx
  cases hx
  refine ⟨[], [e], (List.append_nil _).symm, rfl, fun _ hclean hm => ?_⟩
  exact hclean hm e List.mem_cons_self

theorem withLocals (locals : NameMap TypeRef) (hx : Yields markers x P) :
    Yields markers (TypeM.withLocals locals x) P := by
  have hlocals (f : Typing → NameMap TypeRef) :
      growing.Rel (modify fun t => { t with locals := f t } : TypeM Unit)
        (modify fun t => { t with locals := f t }) :=
    growing.scratch _ (fun _ => rfl) fun _ => List.prefix_rfl
  refine .step growing.get fun t => .step (hlocals fun _ => locals) fun _ => .bind hx fun a => ?_
  exact .step (hlocals fun _ => t.locals) fun _ => .pure fun ha => ha

end Yields

end TypeM

namespace Typer

open TypeM

/-- Whether what typing calls upon only adds errors and expansions, and leaves expanded trees. -/
structure Expands (markers : Bool) (env : Typer) : Prop where
  builds : growing.Builds env env
  again (typed : Scope → Node → TypeM (Node × TypeRef)) (h : env.again = some typed)
    (scope : Scope) (n : Node) :
    Yields markers (typed scope n) fun p => n.MayEnter markers → p.1.MayLeave markers

namespace Expands

variable {markers : Bool} {env : Typer} {s : Span}

/-! ### Definitions and calls -/

/-- What is left of a definition is nothing. -/
theorem inferDefinition (h : env.Expands markers) (scope : Scope) (spec : MacroSpec)
    (known : Option Nat) :
    Yields markers (env.inferDefinition scope s spec known) fun p => p.1.MayLeave markers := by
  unfold Typer.inferDefinition
  cases known
  case' none => refine .step (growing.register spec scope.owner s) fun id => ?_
  case' some id => refine .step (growing.pure id) fun id => ?_
  all_goals
    refine .step (h.builds.build id) fun r => ?_
    cases r with
    | ok _ => exact .pure ((Node.holds_leaf rfl).2 rfl)
    | error d => exact .after (.collect d) fun _ => growing.pure _

/-- A call is replaced by an expansion in which nothing is left to do. -/
theorem expand (h : env.Expands markers) (scope : Scope) (entry : MacroEntry) (call : Node) :
    Yields markers (env.expand scope entry call) fun p => p.1.MayLeave markers := by
  have hagain := h.again
  unfold Typer.expand
  revert hagain
  cases env.again with
  | none => exact fun _ => .after (.report _ _) fun _ => growing.pure _
  | some typed =>
    intro hagain
    refine .step (growing.expandCall entry.unit call) fun r => ?_
    cases r with
    | error d => exact .after (.collectAt d _) fun _ => growing.pure _
    | ok expanded =>
      refine .bind (.record _) fun _ => (hagain typed rfl scope expanded).mono fun p hp hclean => ?_
      exact hp (Node.mayEnter_iff.2 fun hm => Node.markerFree_of_print (hclean hm))

theorem inferName (h : env.Expands markers) (scope : Scope) (name : String) :
    Yields markers (env.inferName scope name s) fun p => p.1.MayLeave markers := by
  refine .step (Walk.rel_findMacro h.builds.build name 0 false s scope.macroOwners) fun r => ?_
  rcases r with d | _ | entry
  · exact .after (.collect d) fun _ => growing.pure _
  · refine .step (growing.rel_ownMethodType scope name s) fun _ => .pure ?_
    exact Node.holds_invoke.2 ⟨rfl, by simp, by simp⟩
  · exact h.expand scope entry _

/-! ### Trees -/

mutual

/-- Typing that reports nothing leaves an expanded tree. -/
theorem infer (h : env.Expands markers) (scope : Scope) : ∀ n : Node,
    Yields markers (env.infer scope n) fun p => n.MayEnter markers → p.1.MayLeave markers
  | ⟨_, .int _⟩ | ⟨_, .float _⟩ | ⟨_, .str _⟩ | ⟨_, .bool _⟩ | ⟨_, .nil⟩ | ⟨_, .self⟩
  | ⟨_, .field _⟩ | ⟨_, .noop⟩ => by
    unfold Typer.infer
    exact .pure fun _ => (Node.holds_leaf rfl).2 rfl
  | ⟨s, .error message⟩ => by
    unfold Typer.infer
    exact .pure fun hn => (Node.holds_leaf rfl).2 ((Node.holds_leaf rfl).1 hn)
  | ⟨s, .ident name⟩ => by
    unfold Typer.infer
    refine .step growing.get fun t => ?_
    split
    · exact .pure fun _ => (Node.holds_leaf rfl).2 rfl
    · exact (h.inferName scope name).mono fun p hp _ => hp
  | ⟨s, .assign name value⟩ => by
    unfold Typer.infer
    refine .bind (infer h scope value) fun p => .step (growing.rel_assign name p.2) fun _ =>
      .pure fun hvalue hn => ?_
    exact Node.holds_assign.2 ⟨rfl, hvalue (Node.holds_assign.1 hn).2⟩
  | ⟨s, .fieldAssign name value⟩ => by
    unfold Typer.infer
    refine .bind (infer h scope value) fun p => .pure fun hvalue hn => ?_
    exact Node.holds_fieldAssign.2 ⟨rfl, hvalue (Node.holds_fieldAssign.1 hn).2⟩
  | ⟨s, .constant name⟩ => by
    unfold Typer.infer
    refine .step (growing.rel_constantType name s) fun _ => .pure fun _ => ?_
    exact (Node.holds_leaf rfl).2 rfl
  | ⟨s, .call target name args block⟩ => by
    unfold Typer.infer
    refine .bind (infer h scope target) fun p =>
      .step (Walk.rel_findMacro h.builds.build name _ _ s _) fun r => ?_
    rcases r with d | _ | entry
    · exact .after (.collect d) fun _ => growing.pure _
    · refine .bind (inferAll h scope args) fun args' => .bind (inferBlock h scope block) fun block' =>
        .step (growing.rel_methodType p.2 name s) fun _ => .pure ?_
      intro hblock hargs htarget hn
      obtain ⟨-, ht, ha, hb⟩ := Node.holds_call.1 hn
      exact Node.holds_call.2 ⟨rfl, htarget ht, hargs ha, hblock hb⟩
    · exact (h.expand scope entry _).mono fun _ hp _ _ => hp
  | ⟨s, .invoke name args block⟩ => by
    unfold Typer.infer
    refine .step (Walk.rel_findMacro h.builds.build name _ _ s scope.macroOwners) fun r => ?_
    rcases r with d | _ | entry
    · exact .after (.collect d) fun _ => growing.pure _
    · refine .bind (inferAll h scope args) fun args' => .bind (inferBlock h scope block) fun block' =>
        .step (growing.rel_ownMethodType scope name s) fun _ => .pure ?_
      intro hblock hargs hn
      obtain ⟨-, ha, hb⟩ := Node.holds_invoke.1 hn
      exact Node.holds_invoke.2 ⟨rfl, hargs ha, hblock hb⟩
    · exact (h.expand scope entry _).mono fun _ hp _ => hp
  | ⟨s, .cond test yes no⟩ => by
    unfold Typer.infer
    refine .bind (infer h scope test) fun test' => .bind (infer h scope yes) fun yes' =>
      .bind (inferOpt h scope no) fun no' => .pure ?_
    intro hno hyes htest hn
    obtain ⟨-, ht, hy, hn⟩ := Node.holds_cond.1 hn
    exact Node.holds_cond.2 ⟨rfl, htest ht, hyes hy, hno hn⟩
  | ⟨s, .body items⟩ => by
    unfold Typer.infer
    refine .step (growing.rel_prescan scope items) fun ids =>
      .bind (inferItems h scope .nil ids items) fun p => .pure fun hitems hn => ?_
    exact Node.holds_body.2 ⟨rfl, hitems (Node.holds_body.1 hn).2⟩
  | ⟨s, .block params body brace⟩ => by
    unfold Typer.infer
    refine .step growing.get fun t => .bind (.withLocals _ (infer h scope body)) fun p =>
      .pure fun hbody hn => ?_
    exact Node.holds_block.2 ⟨rfl, hbody (Node.holds_block.1 hn).2⟩
  | ⟨s, .blockArgument name optional⟩ => by
    unfold Typer.infer
    exact .after (.report _ _) fun _ => growing.pure _
  | ⟨s, .classDef name superclass body⟩ => by
    unfold Typer.infer
    refine .step (growing.openClass name superclass s) fun _ =>
      .bind (.withLocals _ (infer h _ body)) fun p => .pure fun hbody hn => ?_
    exact Node.holds_classDef.2 ⟨rfl, hbody (Node.holds_classDef.1 hn).2⟩
  | ⟨s, .methodDef name params returns body⟩ => by
    unfold Typer.infer
    refine .bind (inferParams h scope params) fun params' =>
      .bind (.withLocals _ (infer h scope body)) fun p =>
      .step (growing.declare scope _) fun _ => .pure fun hbody hparams hn => ?_
    obtain ⟨-, hp, hb⟩ := Node.holds_methodDef.1 hn
    exact Node.holds_methodDef.2 ⟨rfl, hparams hp, hbody hb⟩
  | ⟨s, .macroDef name args body id⟩ => by
    unfold Typer.infer
    exact (h.inferDefinition scope _ id).mono fun _ hp _ => hp
  | ⟨s, .quote body⟩ => by
    unfold Typer.infer
    have hd : growing.Defines env.build env.build := Congruence.defines h.builds.build
    exact .step (Walk.rel_inferHoles h.builds hd scope body) fun _ => .pure fun _ => Node.holds_quote.2 rfl
  | ⟨s, .unquote value⟩ => by
    unfold Typer.infer
    exact .after (.report _ _) fun _ => growing.pure _

theorem inferAll (h : env.Expands markers) (scope : Scope) : ∀ ns : List Node,
    Yields markers (env.inferAll scope ns) fun ns' =>
      (∀ n ∈ ns, n.MayEnter markers) → ∀ n ∈ ns', n.MayLeave markers
  | [] => by
    unfold Typer.inferAll
    exact .pure fun _ n hn => by cases hn
  | n :: ns => by
    unfold Typer.inferAll
    refine .bind (infer h scope n) fun p => .bind (inferAll h scope ns) fun ns' =>
      .pure fun hns hn hall => ?_
    obtain ⟨hfirst, hrest⟩ := List.forall_mem_cons.1 hall
    exact List.forall_mem_cons.2 ⟨hn hfirst, hns hrest⟩

theorem inferBlock (h : env.Expands markers) (scope : Scope) : ∀ n : Option Node,
    Yields markers (env.inferBlock scope n) fun n' =>
      (∀ m ∈ n, m.MayEnter markers) → ∀ m ∈ n', m.MayLeave markers
  | none => by
    unfold Typer.inferBlock
    exact .pure fun _ n hn => by cases hn
  | some n => by
    unfold Typer.inferBlock
    refine .bind (infer h scope n) fun p => .pure fun hn hall m hm => ?_
    exact Option.some.inj hm ▸ hn (hall n rfl)

theorem inferOpt (h : env.Expands markers) (scope : Scope) : ∀ n : Option Node,
    Yields markers (env.inferOpt scope n) fun p =>
      (∀ m ∈ n, m.MayEnter markers) → ∀ m ∈ p.1, m.MayLeave markers
  | none => by
    unfold Typer.inferOpt
    exact .pure fun _ n hn => by cases hn
  | some n => by
    unfold Typer.inferOpt
    refine .bind (infer h scope n) fun p => .pure fun hn hall m hm => ?_
    exact Option.some.inj hm ▸ hn (hall n rfl)

theorem inferItems (h : env.Expands markers) (scope : Scope) (ty : TypeRef) (ids : List (Option Nat)) :
    ∀ ns : List Node, Yields markers (env.inferItems scope ty ids ns) fun p =>
      (∀ n ∈ ns, n.MayEnter markers) → ∀ n ∈ p.1, n.MayLeave markers
  | [] => by
    unfold Typer.inferItems
    exact .pure fun _ n hn => by cases hn
  | n :: ns => by
    have hrest (p : Node × TypeRef) : Yields markers (env.inferItems scope p.2 ids.tail ns >>= fun q =>
        Pure.pure (p.1 :: q.1, q.2)) fun r => p.1.MayLeave markers →
          (∀ m ∈ ns, m.MayEnter markers) → ∀ m ∈ r.1, m.MayLeave markers :=
      .bind (inferItems h scope p.2 ids.tail ns) fun q => .pure fun hq hp hall =>
        List.forall_mem_cons.2 ⟨hp, hq hall⟩
    have hn := infer h scope n
    unfold Typer.inferItems
    revert hn
    split
    · intro _
      refine .bind (h.inferDefinition scope _ _) fun p => (hrest p).mono fun r hr hp hall => ?_
      exact hr hp (List.forall_mem_cons.1 hall).2
    · intro hn
      refine .bind hn fun p => (hrest p).mono fun r hr hp hall => ?_
      obtain ⟨hfirst, hmore⟩ := List.forall_mem_cons.1 hall
      exact hr (hp hfirst) hmore

theorem inferParams (h : env.Expands markers) (scope : Scope) : ∀ ps : List Parameter,
    Yields markers (env.inferParams scope ps) fun ps' =>
      (∀ p ∈ ps, ∀ d ∈ p.default, d.MayEnter markers) → ∀ p ∈ ps', ∀ d ∈ p.default, d.MayLeave markers
  | [] => by
    unfold Typer.inferParams
    exact .pure fun _ p hp => by cases hp
  | ⟨_, _, default, _⟩ :: ps => by
    unfold Typer.inferParams
    refine .bind (inferBlock h scope default) fun default' => .bind (inferParams h scope ps) fun ps' =>
      .pure fun hps hdefault hall => ?_
    obtain ⟨hfirst, hrest⟩ := List.forall_mem_cons.1 hall
    exact List.forall_mem_cons.2 ⟨hdefault hfirst, hps hrest⟩

end

end Expands

/-! ### Nested expansions -/

theorem yields_within (markers : Bool) {build : Nat → TypeM (Except Diagnostic Unit)}
    (hbuild : ∀ id, growing.Rel (build id) (build id)) (left : Nat)
    (scope : Scope) (n : Node) : Yields markers (within build left scope n) fun p =>
      n.MayEnter markers → p.1.MayLeave markers := by
  induction left generalizing scope n with
  | zero =>
    have henv : Expands markers ⟨build, expansionLimit, none⟩ :=
      ⟨⟨hbuild, rfl, .none, by simp⟩, fun typed h => by cases h⟩
    exact henv.infer scope n
  | succ left ih =>
    have hagain (scope : Scope) (n : Node) :
        growing.Rel (within build left scope n) (within build left scope n) :=
      Congruence.rel_within hbuild left scope n
    have hlimit : expansionLimit - (left + 1) < expansionLimit := by
      have : 0 < expansionLimit := by decide
      omega
    have henv : Expands markers ⟨build, expansionLimit - (left + 1), some (within build left)⟩ :=
      ⟨⟨hbuild, rfl, .some hagain, fun _ => hlimit⟩, fun typed h => by cases h; exact ih⟩
    exact henv.infer scope n

/-- Typing that reports nothing leaves an expanded tree. -/
theorem yields_inferWithin (markers : Bool) (nesting : Nat) (scope : Scope) (n : Node) :
    Yields markers (inferWithin nesting scope n) fun p => n.MayEnter markers → p.1.MayLeave markers :=
  yields_within markers (fun id => ⟨runs_require nesting id, (spares_require nesting id).collects⟩)
    expansionLimit scope n

end Typer

end Quasiquote
