import Quasiquote.Typing.Infer
import Quasiquote.Proofs.Template.Holes

namespace Quasiquote

/-!
# Phases — which holes of a quoted tree are found

A quoted tree is gone through three times.  Inline expansion rewrites the values of its holes,
typing types them, and printing the tree as a template captures them.  Each of the three has a
recursion of its own, and all of them find the same holes in the same order.

* `Node.eachHole` — a quoted tree with something done to the value of each of its holes;
* `Node.expandInline_eq`, `Node.inferHoles_eq` — inline expansion and typing do nothing else;
* `Node.visits_eachHole` — unless there are macro definitions in it, the holes are those of the
  tree;
* `Node.phases_agree` — so they are those that a template captures.
-/

namespace Node

section Traversal

variable {m : Type → Type} [Monad m]

mutual

/-- A quoted tree with something done to the value of each of its holes, in order.  Quotes and
    macro definitions inside the tree are left alone. -/
def eachHole (f : Node → m Node) : Node → m Node
  | ⟨s, .unquote v⟩ => do return ⟨s, .unquote (← f v)⟩
  | ⟨s, .assign name v⟩ => do return ⟨s, .assign name (← eachHole f v)⟩
  | ⟨s, .fieldAssign name v⟩ => do return ⟨s, .fieldAssign name (← eachHole f v)⟩
  | ⟨s, .call target name args block⟩ => do
    let target ← eachHole f target
    let args ← eachHoleAll f args
    let block ← eachHoleOpt f block
    return ⟨s, .call target name args block⟩
  | ⟨s, .invoke name args block⟩ => do
    let args ← eachHoleAll f args
    let block ← eachHoleOpt f block
    return ⟨s, .invoke name args block⟩
  | ⟨s, .cond test yes no⟩ => do
    let test ← eachHole f test
    let yes ← eachHole f yes
    let no ← eachHoleOpt f no
    return ⟨s, .cond test yes no⟩
  | ⟨s, .body items⟩ => do return ⟨s, .body (← eachHoleAll f items)⟩
  | ⟨s, .block params body brace⟩ => do return ⟨s, .block params (← eachHole f body) brace⟩
  | ⟨s, .classDef name superclass body⟩ => do
    return ⟨s, .classDef name superclass (← eachHole f body)⟩
  | ⟨s, .methodDef name params returns body⟩ => do
    let params ← eachHoleParams f params
    let body ← eachHole f body
    return ⟨s, .methodDef name params returns body⟩
  | n => return n

/-- Several quoted trees with something done to the value of each hole. -/
def eachHoleAll (f : Node → m Node) : List Node → m (List Node)
  | [] => return []
  | n :: ns => do
    let n ← eachHole f n
    let ns ← eachHoleAll f ns
    return n :: ns

/-- A quoted tree that may be absent, with something done to the value of each hole. -/
def eachHoleOpt (f : Node → m Node) : Option Node → m (Option Node)
  | none => return none
  | some n => do return some (← eachHole f n)

/-- Quoted parameters with something done to the value of each hole in their defaults. -/
def eachHoleParams (f : Node → m Node) : List Parameter → m (List Parameter)
  | [] => return []
  | ⟨name, type, default, block⟩ :: ps => do
    let default ← eachHoleOpt f default
    let ps ← eachHoleParams f ps
    return ⟨name, type, default, block⟩ :: ps

end

section Visits

variable [LawfulMonad m] {f : Node → m Node}

mutual

/-- Without macro definitions, the holes that something is done to are those of the tree. -/
theorem visits_eachHole :
    ∀ n : Node, n.MacroFree → Visits f n.holes (eachHole f n) n.refill
  | ⟨_, .unquote v⟩, _ => by
    simp only [eachHole, refill, holes]
    exact .one fun a => rfl
  | ⟨_, .assign _ v⟩, h => by
    simp only [eachHole, refill, holes]
    exact .map (visits_eachHole v (every_assign.1 h).2)
  | ⟨_, .fieldAssign _ v⟩, h => by
    simp only [eachHole, refill, holes]
    exact .map (visits_eachHole v (every_fieldAssign.1 h).2)
  | ⟨_, .call target _ args block⟩, h => by
    obtain ⟨-, htarget, hargs, hblock⟩ := every_call.1 h
    simp only [eachHole, refill, holes]
    exact .bind (visits_eachHole target htarget) fun _ =>
      .bind (visits_eachHoleAll args hargs) fun _ => .map (visits_eachHoleOpt block hblock)
  | ⟨_, .invoke _ args block⟩, h => by
    obtain ⟨-, hargs, hblock⟩ := every_invoke.1 h
    simp only [eachHole, refill, holes]
    exact .bind (visits_eachHoleAll args hargs) fun _ => .map (visits_eachHoleOpt block hblock)
  | ⟨_, .cond test yes no⟩, h => by
    obtain ⟨-, htest, hyes, hno⟩ := every_cond.1 h
    simp only [eachHole, refill, holes]
    exact .bind (visits_eachHole test htest) fun _ =>
      .bind (visits_eachHole yes hyes) fun _ => .map (visits_eachHoleOpt no hno)
  | ⟨_, .body items⟩, h => by
    simp only [eachHole, refill, holes]
    exact .map (visits_eachHoleAll items (every_body.1 h).2)
  | ⟨_, .block _ body _⟩, h => by
    simp only [eachHole, refill, holes]
    exact .map (visits_eachHole body (every_block.1 h).2)
  | ⟨_, .classDef _ _ body⟩, h => by
    simp only [eachHole, refill, holes]
    exact .map (visits_eachHole body (every_classDef.1 h).2)
  | ⟨_, .methodDef _ params _ body⟩, h => by
    obtain ⟨-, hparams, hbody⟩ := every_methodDef.1 h
    simp only [eachHole, refill, holes]
    exact .bind (visits_eachHoleParams params hparams) fun _ => .map (visits_eachHole body hbody)
  -- a macro definition is left alone, but its text has holes
  | ⟨_, .macroDef _ _ _ _⟩, h => nomatch h.self
  | ⟨_, .int _⟩, _ | ⟨_, .float _⟩, _ | ⟨_, .str _⟩, _ | ⟨_, .bool _⟩, _ | ⟨_, .nil⟩, _
  | ⟨_, .self⟩, _ | ⟨_, .ident _⟩, _ | ⟨_, .field _⟩, _ | ⟨_, .constant _⟩, _
  | ⟨_, .blockArgument _ _⟩, _ | ⟨_, .quote _⟩, _ | ⟨_, .noop⟩, _ | ⟨_, .error _⟩, _ => by
    simp only [eachHole, refill, holes]
    exact .pure _

theorem visits_eachHoleAll : ∀ ns : List Node, (∀ n ∈ ns, n.MacroFree) →
    Visits f (holesAll ns) (eachHoleAll f ns) (refillAll ns)
  | [], _ => by
    simp only [eachHoleAll, refillAll, holesAll]
    exact .pure _
  | n :: ns, h => by
    obtain ⟨hn, hns⟩ := List.forall_mem_cons.1 h
    simp only [eachHoleAll, refillAll, holesAll]
    exact .bind (visits_eachHole n hn) fun _ => .map (visits_eachHoleAll ns hns)

theorem visits_eachHoleOpt : ∀ n : Option Node, (∀ n' ∈ n, n'.MacroFree) →
    Visits f (holesOpt n) (eachHoleOpt f n) (refillOpt n)
  | none, _ => by
    simp only [eachHoleOpt, refillOpt, holesOpt]
    exact .pure _
  | some n, h => by
    simp only [eachHoleOpt, refillOpt, holesOpt]
    exact .map (visits_eachHole n (h n rfl))

theorem visits_eachHoleParams :
    ∀ ps : List Parameter, (∀ p ∈ ps, ∀ d ∈ p.default, d.MacroFree) →
      Visits f (holesParams ps) (eachHoleParams f ps) (refillParams ps)
  | [], _ => by
    simp only [eachHoleParams, refillParams, holesParams]
    exact .pure _
  | ⟨_, _, default, _⟩ :: ps, h => by
    obtain ⟨hp, hps⟩ := List.forall_mem_cons.1 h
    simp only [eachHoleParams, refillParams, holesParams]
    exact .bind (visits_eachHoleOpt default hp) fun _ => .map (visits_eachHoleParams ps hps)

end

end Visits

/-! ### Inline expansion -/

section Inline

variable (env : InlineEnv) (fail : Diagnostic → m Unit)

mutual

/-- In a quoted tree, inline expansion expands the values of the holes. -/
theorem expandInline_eq :
    ∀ n : Node, expandInlineM env fail true n = eachHole (expandInlineM env fail false) n
  | ⟨_, .unquote _⟩ => by rw [expandInlineM, eachHole]
  | ⟨_, .assign _ v⟩ | ⟨_, .fieldAssign _ v⟩ => by
    rw [expandInlineM, eachHole, expandInline_eq v]
  | ⟨_, .block _ body _⟩ | ⟨_, .classDef _ _ body⟩ => by
    rw [expandInlineM, eachHole, expandInline_eq body]
  | ⟨_, .call target _ args block⟩ => by
    rw [expandInlineM, eachHole, expandInline_eq target, expandInlineAll_eq args,
      expandInlineOpt_eq block]
  | ⟨_, .invoke _ args block⟩ => by
    rw [expandInlineM, eachHole, expandInlineAll_eq args, expandInlineOpt_eq block]
    rfl
  | ⟨_, .cond test yes no⟩ => by
    rw [expandInlineM, eachHole, expandInline_eq test, expandInline_eq yes, expandInlineOpt_eq no]
  | ⟨_, .body items⟩ => by rw [expandInlineM, eachHole, expandInlineAll_eq items]
  | ⟨_, .methodDef _ params _ body⟩ => by
    rw [expandInlineM, eachHole, expandInlineParams_eq params, expandInline_eq body]
  | ⟨_, .int _⟩ | ⟨_, .float _⟩ | ⟨_, .str _⟩ | ⟨_, .bool _⟩ | ⟨_, .nil⟩ | ⟨_, .self⟩
  | ⟨_, .ident _⟩ | ⟨_, .field _⟩ | ⟨_, .constant _⟩ | ⟨_, .blockArgument _ _⟩ | ⟨_, .quote _⟩
  | ⟨_, .macroDef _ _ _ _⟩ | ⟨_, .noop⟩ | ⟨_, .error _⟩ => rfl

theorem expandInlineAll_eq : ∀ ns : List Node,
    expandInlineListM env fail true ns = eachHoleAll (expandInlineM env fail false) ns
  | [] => rfl
  | n :: ns => by rw [expandInlineListM, eachHoleAll, expandInline_eq n, expandInlineAll_eq ns]

theorem expandInlineOpt_eq : ∀ n : Option Node,
    expandInlineOptM env fail true n = eachHoleOpt (expandInlineM env fail false) n
  | none => rfl
  | some n => by rw [expandInlineOptM, eachHoleOpt, expandInline_eq n]

theorem expandInlineParams_eq : ∀ ps : List Parameter,
    expandInlineParamsM env fail true ps = eachHoleParams (expandInlineM env fail false) ps
  | [] => rfl
  | ⟨_, _, default, _⟩ :: ps => by
    rw [expandInlineParamsM, eachHoleParams, expandInlineOpt_eq default, expandInlineParams_eq ps]

end

end Inline

end Traversal

/-! ### Typing -/

section Typing

variable (env : Typer) (scope : Scope)

mutual

/-- In a quoted tree, typing types the values of the holes. -/
theorem inferHoles_eq : ∀ n : Node,
    env.inferHoles scope n = eachHole (fun v => Prod.fst <$> env.infer scope v) n
  | ⟨_, .unquote _⟩ => by simp [Typer.inferHoles, eachHole]
  | ⟨_, .assign _ v⟩ | ⟨_, .fieldAssign _ v⟩ => by
    rw [Typer.inferHoles, eachHole, inferHoles_eq v]
  | ⟨_, .block _ body _⟩ | ⟨_, .classDef _ _ body⟩ => by
    rw [Typer.inferHoles, eachHole, inferHoles_eq body]
  | ⟨_, .call target _ args block⟩ => by
    rw [Typer.inferHoles, eachHole, inferHoles_eq target, inferHolesAll_eq args,
      inferHolesOpt_eq block]
  | ⟨_, .invoke _ args block⟩ => by
    rw [Typer.inferHoles, eachHole, inferHolesAll_eq args, inferHolesOpt_eq block]
  | ⟨_, .cond test yes no⟩ => by
    rw [Typer.inferHoles, eachHole, inferHoles_eq test, inferHoles_eq yes, inferHolesOpt_eq no]
  | ⟨_, .body items⟩ => by rw [Typer.inferHoles, eachHole, inferHolesAll_eq items]
  | ⟨_, .methodDef _ params _ body⟩ => by
    rw [Typer.inferHoles, eachHole, inferHolesParams_eq params, inferHoles_eq body]
  | ⟨_, .int _⟩ | ⟨_, .float _⟩ | ⟨_, .str _⟩ | ⟨_, .bool _⟩ | ⟨_, .nil⟩ | ⟨_, .self⟩
  | ⟨_, .ident _⟩ | ⟨_, .field _⟩ | ⟨_, .constant _⟩ | ⟨_, .blockArgument _ _⟩ | ⟨_, .quote _⟩
  | ⟨_, .macroDef _ _ _ _⟩ | ⟨_, .noop⟩ | ⟨_, .error _⟩ => rfl

theorem inferHolesAll_eq : ∀ ns : List Node,
    env.inferHolesAll scope ns = eachHoleAll (fun v => Prod.fst <$> env.infer scope v) ns
  | [] => rfl
  | n :: ns => by rw [Typer.inferHolesAll, eachHoleAll, inferHoles_eq n, inferHolesAll_eq ns]

theorem inferHolesOpt_eq : ∀ n : Option Node,
    env.inferHolesOpt scope n = eachHoleOpt (fun v => Prod.fst <$> env.infer scope v) n
  | none => rfl
  | some n => by rw [Typer.inferHolesOpt, eachHoleOpt, inferHoles_eq n]

theorem inferHolesParams_eq : ∀ ps : List Parameter,
    env.inferHolesParams scope ps = eachHoleParams (fun v => Prod.fst <$> env.infer scope v) ps
  | [] => rfl
  | ⟨_, _, default, _⟩ :: ps => by
    rw [Typer.inferHolesParams, eachHoleParams, inferHolesOpt_eq default, inferHolesParams_eq ps]

end

end Typing

/-- **Theorem.** The phases agree on what the holes of a quoted tree without macro definitions are.
    A template captures their values in order, and its text is that of the tree with their numbers
    in their places.  Inline expansion expands, and typing types, these values in this order, and
    puts the results in their places. -/
theorem phases_agree (q : Node) (h : q.MacroFree) :
    (∀ scopes, (Scopes.extract q.printTemplate.run).run scopes =
      ((.ok (q.refill (ordinals q.holes.length)).print, q.holes), scopes)) ∧
    (∀ {m : Type → Type} [Monad m] [LawfulMonad m] (env : InlineEnv) (fail : Diagnostic → m Unit),
      expandInlineM env fail true q = do
        let vs ← q.holes.mapM (expandInlineM env fail false)
        return q.refill vs) ∧
    ∀ (env : Typer) (scope : Scope), env.inferHoles scope q = do
      let vs ← q.holes.mapM fun v => Prod.fst <$> env.infer scope v
      return q.refill vs :=
  ⟨extract_printTemplate q,
    fun env fail => (expandInline_eq env fail q).trans (visits_eachHole q h),
    fun env scope => (inferHoles_eq env scope q).trans (visits_eachHole q h)⟩

/-- A hole in the default of a parameter and one in the body, around a further quote. -/
theorem phases_agree_nested :
    let hole (name : String) : Node := ⟨Span.zero, .unquote ⟨Span.zero, .ident name⟩⟩
    let q : Node := ⟨Span.zero, .methodDef "f" [⟨"a", none, some (hole "x"), false⟩] none
      ⟨Span.zero, .cond (hole "y") ⟨Span.zero, .quote (hole "z")⟩ none⟩⟩
    q.MacroFree ∧ ((Scopes.extract q.printTemplate.run).run []).1.2 =
        [⟨Span.zero, .ident "x"⟩, ⟨Span.zero, .ident "y"⟩] ∧
      (q.refill (ordinals 2)).print =
        "def f(a = `$0`)\n  if `$1`\n    quote \x7b\n      `z`\n    \x7d\n  end\nend" := by
  intro hole q
  have hq : q.MacroFree := by simp [q, hole, MacroFree, Form.isMacroDef]
  refine ⟨hq, ?_, by cbv⟩
  rw [(phases_agree q hq).1]
  rfl

end Node

end Quasiquote
