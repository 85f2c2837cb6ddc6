import Quasiquote.Proofs.Unit.Binding
import Quasiquote.Proofs.Unit.Control

namespace Quasiquote

/-!
# Endings — every unit runs to an end

The steps of a unit carry out what the evaluator says, whatever waits for the outcome.  For the
parts of a tree this is an induction on the tree, and for the bodies of methods an induction on how
many more methods the counter leaves room for.

* `Evaluator.Computes` — what is turned to comes to the outcome of a computation;
* `Evaluator.computes_eval` — trees, where calls do;
* `Evaluator.computes_invoke` — calls of methods;
* `LoadedUnit.runs_to_end` — the steps of a unit end with the outcome of the expansion.
-/

namespace Evaluator

open Config

variable {env : Evaluator}

/-! ### Runs -/

theorem Reaches.trans {c c' c'' : Config} (h : env.Reaches c c') (h' : env.Reaches c' c'') :
    env.Reaches c c'' :=
  Relation.ReflTransGen.trans h h'

theorem Reaches.head {c c' c'' : Config} (h : env.step c = some c') (h' : env.Reaches c' c'') :
    env.Reaches c c'' :=
  Relation.ReflTransGen.head h h'

/-- Everything that a run passes through comes to its end. -/
theorem Reaches.of_end {c c' last : Config} (hlast : env.Reaches c last)
    (hend : env.step last = none) (h : env.Reaches c c') : env.Reaches c' last := by
  induction h with
  | refl => exact hlast
  | @tail b b' hrun hstep ih =>
    -- the step from `b` is the only one, and it is not from the end
    rcases Relation.ReflTransGen.cases_head ih with rfl | ⟨d, hd, hrest⟩
    · rw [hend] at hstep
      cases hstep
    · rw [hstep] at hd
      cases hd
      exact hrest

/-- Nothing comes after the end. -/
theorem Reaches.eq_of_end {c c' : Config} (h : env.Reaches c c') (hend : env.step c = none) :
    c' = c := by
  rcases Relation.ReflTransGen.cases_head h with rfl | ⟨d, hd, -⟩
  · rfl
  · rw [hend] at hd
    cases hd

/-- An error is passed on, whatever waits. -/
theorem reaches_error (e : Diagnostic) (m : Machine) : ∀ (K : List Pending) (d : Nat),
    ∃ d', env.Reaches ⟨.done (.error e), K, d, m⟩ ⟨.done (.error e), [], d', m⟩
  | [], d => ⟨d, .refl⟩
  -- a method that waits decreases the counter, so the rest begins with another one
  | p :: K, d => by
    obtain ⟨d', h⟩ := reaches_error e m K (abandon ⟨.done (.error e), K, d, m⟩ p).depth
    refine ⟨d', .head ?_ h⟩
    show some (abandon ⟨.done (.error e), K, d, m⟩ p) = _
    cases p <;> rfl

/-! ### Computations -/

/-- Whether a focus comes to the outcome of a computation where `d` methods have been entered.  What
    waits and the counter are in the end as they were. -/
def Computes (env : Evaluator) (d : Nat) (f : Focus) (x : RunM Value) : Prop :=
  ∀ K m, env.Reaches ⟨f, K, d, m⟩ ⟨.done (x.run m).1, K, d, (x.run m).2⟩

namespace Computes

variable {d : Nat} {f f' : Focus} {x y : RunM Value}

theorem done (v : Value) : Computes env d (.done (.ok v)) (pure v) :=
  fun _ _ => .refl

/-- Something that calls no method. -/
theorem carryOut (hstep : ∀ K m, env.step ⟨f, K, d, m⟩ = some (Config.carryOut ⟨f, K, d, m⟩ x)) :
    Computes env d f x :=
  fun K m => .single (hstep K m)

/-- Something that is turned to. -/
theorem turn (hstep : ∀ K m, env.step ⟨f, K, d, m⟩ = some (Config.turn ⟨f, K, d, m⟩ f'))
    (h : Computes env d f' x) : Computes env d f x :=
  fun K m => .head (hstep K m) (h K m)

/-- An outcome that something waits for, which is no method, is what it goes on from. -/
theorem handed {p : Pending} {g : Value → RunM Value} (h : Computes env d f x)
    (hp : p.isMethod = false)
    (hg : ∀ v K m, env.Reaches (env.resume ⟨.done (.ok v), K, d, m⟩ v p)
      ⟨.done ((g v).run m).1, K, d, ((g v).run m).2⟩) (K : List Pending) (m : Machine) :
    env.Reaches ⟨f, p :: K, d, m⟩
      ⟨.done ((x >>= g).run m).1, K, d, ((x >>= g).run m).2⟩ := by
  refine Reaches.trans (h (p :: K) m) ?_
  rw [run_bind_apply]
  rcases x.run m with ⟨e | v, m'⟩
  · -- an error passes on what waits
    refine .single ?_
    show some (abandon ⟨.done (.error e), K, d, m'⟩ p) = _
    cases p with
    | method outer => cases hp
    | _ => rfl
  · exact .head rfl (hg v K m')

/-- A value that is awaited before something else is done. -/
theorem await {n : Node} {p : Pending} {g : Value → RunM Value}
    (hstep : ∀ K m, env.step ⟨f, K, d, m⟩ = some (Config.await ⟨f, K, d, m⟩ p n))
    (h : Computes env d (.eval n) x) (hp : p.isMethod = false)
    (hg : ∀ v K m, env.Reaches (env.resume ⟨.done (.ok v), K, d, m⟩ v p)
      ⟨.done ((g v).run m).1, K, d, ((g v).run m).2⟩) : Computes env d f (x >>= g) :=
  fun K m => .head (hstep K m) (h.handed hp hg K m)

/-- Whichever of two is turned to. -/
theorem branch (b : Bool) (h : Computes env d f x) (h' : Computes env d f' y) :
    Computes env d (if b then f else f') (if b then x else y) := by
  cases b with
  | true => exact h
  | false => exact h'

end Computes

/-! ### Trees -/

section Trees

variable {d : Nat} {call : String → List Value → RunM Value}

/-- Uses the values of arguments. -/
def Callee.apply (env : Evaluator) (call : String → List Value → RunM Value) :
    Callee → List Value → RunM Value
  | .send v name, args => env.send v name args
  | .method name, args => call name args

/-- A call after its receiver. -/
def afterReceiver (env : Evaluator) (call : String → List Value → RunM Value) (v : Value) :
    String → List Node → RunM Value
  | "&&", [rhs] => if v.truthy then env.eval call rhs else pure v
  | "||", [rhs] => if v.truthy then pure v else env.eval call rhs
  | name, args => do env.send v name (← env.evalAll call args)

theorem eval_call (s : Span) (target : Node) (name : String) (args : List Node) :
    env.eval call ⟨s, .call target name args none⟩ =
      env.eval call target >>= fun v => afterReceiver env call v name args := by
  -- the evaluator looks for its two special operators first, in this order
  by_cases hand : ∃ rhs, name = "&&" ∧ args = [rhs]
  · obtain ⟨rhs, rfl, rfl⟩ := hand
    rw [eval]
    rfl
  · by_cases hor : ∃ rhs, name = "||" ∧ args = [rhs]
    · obtain ⟨rhs, rfl, rfl⟩ := hor
      rw [eval]
      rfl
    · rw [eval]
      · refine congrArg _ (funext fun v => ?_)
        rw [afterReceiver]
        · exact fun rhs hname hargs => hand ⟨rhs, hname, hargs⟩
        · exact fun rhs hname hargs => hor ⟨rhs, hname, hargs⟩
      · exact fun rhs hname hargs => hand ⟨rhs, hname, hargs⟩
      · exact fun rhs hname hargs => hor ⟨rhs, hname, hargs⟩

/-- A local variable, or a call. -/
theorem computes_ident (hcall : ∀ name args, Computes env d (.call name args) (call name args))
    (s : Span) (name : String) :
    Computes env d (.eval ⟨s, .ident name⟩) (env.eval call ⟨s, .ident name⟩) := by
  intro K m
  rw [eval, lookup, run_bind_apply, run_get_apply]
  refine .head rfl ?_
  simp only [takeApart]
  cases m.frame.get? name with
  | some v => exact .refl
  | none =>
    -- no local variable hides a method of the name
    dsimp only
    by_cases hm : (env.unit.image.method? name).isSome = true
    · rw [if_pos hm, if_pos hm]
      exact hcall name [] K m
    · rw [if_neg hm, if_neg hm]
      exact .refl

/-- A call goes on after its receiver. -/
theorem reaches_receive {v : Value} {name : String} {args : List Node}
    (hmem : ∀ n ∈ args, Computes env d (.eval n) (env.eval call n))
    (hall : Computes env d (.arguments (.send v name) [] args)
      (do let vs ← env.evalAll call args; Callee.apply env call (.send v name) ([] ++ vs)))
    (K : List Pending) (m : Machine) :
    env.Reaches (receive ⟨.done (.ok v), K, d, m⟩ v name args)
      ⟨.done ((afterReceiver env call v name args).run m).1, K, d,
        ((afterReceiver env call v name args).run m).2⟩ := by
  unfold receive
  split
  case h_1 rhs =>
    exact Computes.branch v.truthy (hmem rhs List.mem_cons_self) (.done v) K m
  case h_2 rhs =>
    exact Computes.branch v.truthy (.done v) (hmem rhs List.mem_cons_self) K m
  case h_3 hand hor =>
    rw [afterReceiver]
    · exact hall K m
    · exact hand
    · exact hor

mutual

/-- The steps for a tree come to its value, where those for a call do. -/
theorem computes_eval (hcall : ∀ name args, Computes env d (.call name args) (call name args)) :
    ∀ n : Node, Computes env d (.eval n) (env.eval call n)
  | ⟨_, .int _⟩ | ⟨_, .float _⟩ | ⟨_, .str _⟩ | ⟨_, .bool _⟩ | ⟨_, .nil⟩ | ⟨_, .noop⟩
  | ⟨_, .constant _⟩ | ⟨_, .call _ _ _ (some _)⟩ | ⟨_, .invoke _ _ (some _)⟩
  | ⟨_, .block _ _ _⟩ | ⟨_, .error _⟩ | ⟨_, .self⟩ | ⟨_, .blockArgument _ _⟩
  | ⟨_, .classDef _ _ _⟩ | ⟨_, .methodDef _ _ _ _⟩ | ⟨_, .macroDef _ _ _ _⟩ | ⟨_, .quote _⟩
  | ⟨_, .unquote _⟩ => .carryOut fun _ _ => rfl
  | ⟨s, .ident name⟩ => computes_ident hcall s name
  | ⟨_, .field _⟩ => fun K m => by rw [eval]; exact .head rfl .refl
  | ⟨_, .assign _ value⟩ => by
    rw [eval]
    exact (computes_eval hcall value).await (fun _ _ => rfl) rfl fun _ _ _ => .refl
  | ⟨_, .fieldAssign _ value⟩ => by
    rw [eval]
    exact (computes_eval hcall value).await (fun _ _ => rfl) rfl fun _ _ _ => .refl
  | ⟨s, .call target name args none⟩ => by
    rw [eval_call]
    exact (computes_eval hcall target).await (fun _ _ => rfl) rfl fun v K m =>
      reaches_receive (computes_mem hcall args) (computes_evalAll hcall args (.send v name) []) K m
  | ⟨_, .invoke name args none⟩ => by
    rw [eval]
    exact .turn (fun _ _ => rfl) (computes_evalAll hcall args (.method name) [])
  | ⟨_, .cond test yes no⟩ => by
    rw [eval]
    refine (computes_eval hcall test).await (p := .branch yes no) (fun _ _ => rfl) rfl ?_
    intro v K m
    exact Computes.branch v.truthy (computes_eval hcall yes) (computes_evalOpt hcall no) K m
  | ⟨_, .body items⟩ => by
    rw [eval]
    exact .turn (fun _ _ => rfl) (computes_evalLast hcall items .nil)

/-- The steps for arguments come to what they are for. -/
theorem computes_evalAll (hcall : ∀ name args, Computes env d (.call name args) (call name args)) :
    ∀ (ns : List Node) (callee : Callee) (before : List Value),
      Computes env d (.arguments callee before ns)
        (do let vs ← env.evalAll call ns; callee.apply env call (before ++ vs))
  | [], callee, before => by
    rw [evalAll, pure_bind, List.append_nil]
    cases callee with
    | send v name => exact .carryOut fun _ _ => rfl
    | method name => exact .turn (fun _ _ => rfl) (hcall name before)
  | n :: ns, callee, before => by
    rw [evalAll, bind_assoc]
    refine (computes_eval hcall n).await (fun _ _ => rfl) rfl fun v K m => ?_
    -- the steps collect the values in front, where the evaluator puts them together behind
    have hrest := computes_evalAll hcall ns callee (before ++ [v]) K m
    simp only [List.append_assoc, List.singleton_append] at hrest
    rwa [bind_assoc]

theorem computes_mem (hcall : ∀ name args, Computes env d (.call name args) (call name args)) :
    ∀ ns : List Node, ∀ n ∈ ns, Computes env d (.eval n) (env.eval call n)
  | n :: _, _, .head _ => computes_eval hcall n
  | _ :: ns, _, .tail _ h => computes_mem hcall ns _ h

/-- The steps for a tree that may be absent. -/
theorem computes_evalOpt (hcall : ∀ name args, Computes env d (.call name args) (call name args)) :
    ∀ o : Option Node, Computes env d (.ofOption o) (env.evalOpt call o)
  | none => by
    rw [evalOpt]
    exact .done .nil
  | some n => by
    rw [evalOpt]
    exact computes_eval hcall n

/-- The steps for statements come to the value of the last. -/
theorem computes_evalLast (hcall : ∀ name args, Computes env d (.call name args) (call name args)) :
    ∀ (ns : List Node) (v : Value), Computes env d (.statements v ns) (env.evalLast call v ns)
  | [], v => by
    rw [evalLast]
    exact .turn (fun _ _ => rfl) (.done v)
  | n :: ns, v => by
    rw [evalLast]
    exact (computes_eval hcall n).await (fun _ _ => rfl) rfl (computes_evalLast hcall ns)

end

end Trees

/-! ### Calls of methods -/

/-- The body of a method is left as it was entered, by a value or by an error. -/
theorem reaches_method {d : Nat} {body : Node} {x : RunM Value}
    (h : Computes env (d + 1) (.eval body) x) (frame : NameMap Value) (K : List Pending)
    (m : Machine) :
    env.Reaches ⟨.eval body, .method m.frame :: K, d + 1, { m with frame }⟩
      ⟨.done ((inFrame frame x).run m).1, K, d, ((inFrame frame x).run m).2⟩ := by
  refine Reaches.trans (h (.method m.frame :: K) { m with frame }) ?_
  rw [run_inFrame]
  rcases x.run { m with frame } with ⟨e | v, m'⟩
  · exact .single rfl
  · exact .single rfl

/-- Looking a method up changes nothing. -/
theorem run_methodFor (name : String) (args : List Value) (m : Machine) :
    (env.methodFor name args).run m = (((env.methodFor name args).run m).1, m) := by
  unfold methodFor
  split
  · rfl
  · split <;> rfl

/-- The steps for a call come to its value.  The induction is on the number of methods that the
    counter leaves room for, which is what the evaluator counts. -/
theorem computes_invoke : ∀ (n d : Nat), d + n = nesting → ∀ (name : String) (args : List Value),
    Computes env d (.call name args) (env.invoke n name args)
  | 0, d, hd, name, args => by
    -- the counter leaves no room, so both refuse the call, once the method has been found
    intro K m
    have hroom : ¬d < nesting := by omega
    refine .head rfl ?_
    rw [invoke, run_bind_apply, run_methodFor, enter]
    cases ((env.methodFor name args).run m).1 with
    | error e => exact .refl
    | ok method =>
      dsimp only
      rw [if_neg hroom]
      exact .refl
  | n + 1, d, hd, name, args => by
    -- the body runs one level further in, with one method less to enter
    intro K m
    have hroom : d < nesting := by omega
    have hbody (body : Node) := computes_eval (computes_invoke n (d + 1) (by omega)) body
    refine .head rfl ?_
    rw [invoke, run_bind_apply, run_methodFor, enter]
    cases ((env.methodFor name args).run m).1 with
    | error e => exact .refl
    | ok method =>
      dsimp only
      rw [if_pos hroom]
      exact reaches_method (hbody method.body) _ K m

/-- A call comes to an outcome wherever the counter is. -/
theorem Config.Counted.returns {c : Config} (h : c.Counted) {name : String} {args : List Value}
    (hcall : c.focus = .call name args) :
    ∃ r m, env.Reaches c ⟨.done r, c.stack, c.depth, m⟩ := by
  obtain ⟨focus, K, d, m⟩ := c
  cases hcall
  have hd : d + (nesting - d) = nesting := Nat.add_sub_of_le h.le_nesting
  exact ⟨_, _, computes_invoke (nesting - d) d hd name args K m⟩

/-! ### Units -/

/-- The calls of methods that a unit starts from. -/
def calls (env : Evaluator) (call : Node) : RunM Value :=
  if (env.unit.image.method? "initialize").isSome then
    env.invoke nesting "initialize" [.compiler, .node call] >>= fun _ =>
      env.invoke nesting Extension.entryMethod []
  else env.invoke nesting Extension.entryMethod []

theorem result_expand (env : Evaluator) (call : Node) (scopes : Scopes Node) :
    (env.unit.expand env.compiler call scopes).result = ((env.run call).run { scopes }).1 :=
  rfl

theorem run_eq_calls (call : Node) : env.run call = env.calls call >>= env.answer call := by
  unfold Evaluator.run calls
  by_cases h : (env.unit.image.method? "initialize").isSome = true
  · rw [if_pos h, if_pos h, bind_assoc]
    rfl
  · rw [if_neg h, if_neg h]
    rfl

/-- What is done with the value of the entry method. -/
theorem run_answerAt (call : Node) (v : Value) (m : Machine) :
    (env.answerAt call.span v).run m =
      (((env.answer call v).run m).1.map .node, ((env.answer call v).run m).2) := by
  unfold answerAt answer
  cases v.toNode call.span <;> rfl

theorem reaches_calls (call : Node) (scopes : Scopes Node) :
    env.Reaches (env.start call scopes)
      ⟨.done ((env.calls call).run { scopes }).1, [.answer call.span], 0,
        ((env.calls call).run { scopes }).2⟩ := by
  have hinvoke := @computes_invoke env nesting 0 (Nat.zero_add _)
  unfold start calls
  by_cases h : (env.unit.image.method? "initialize").isSome = true
  · rw [if_pos h, if_pos h]
    exact (hinvoke "initialize" _).handed (p := .constructor) rfl
      (fun _ => hinvoke Extension.entryMethod []) _ _
  · rw [if_neg h, if_neg h]
    exact hinvoke Extension.entryMethod [] _ _

/-- The steps of a unit come to the outcome of its run. -/
theorem reaches_run (call : Node) (scopes : Scopes Node) :
    env.Reaches (env.start call scopes)
      ⟨.done (((env.run call).run { scopes }).1.map .node), [], 0,
        ((env.run call).run { scopes }).2⟩ := by
  refine (reaches_calls call scopes).trans ?_
  rw [run_eq_calls, run_bind_apply]
  rcases (env.calls call).run { scopes } with ⟨e | v, m⟩
  · exact .single rfl
  · refine .single ?_
    show some (Config.carryOut ⟨.done (.ok v), [], 0, m⟩ (env.answerAt call.span v)) = _
    rw [Config.carryOut, run_answerAt]

/-- An error anywhere in the run of a unit is the result of the expansion. -/
theorem Reaches.result_eq {call : Node} {scopes : Scopes Node} {e : Diagnostic}
    {K : List Pending} {d : Nat} {m : Machine}
    (h : env.Reaches (env.start call scopes) ⟨.done (.error e), K, d, m⟩) :
    (env.unit.expand env.compiler call scopes).result = .error e := by
  obtain ⟨d', hpass⟩ := @reaches_error env e m K d
  have hlast := (reaches_run call scopes).of_end rfl (h.trans hpass)
  have hfocus := congrArg Config.focus (hlast.eq_of_end rfl)
  rw [result_expand]
  revert hfocus
  cases ((env.run call).run { scopes }).1 with
  | error e' =>
    intro hfocus
    cases hfocus
    rfl
  | ok n =>
    intro hfocus
    cases hfocus

end Evaluator

open Evaluator in
/-- Every unit runs to an end.  Whatever the methods of a unit are, whatever call it is given and
    however the compiler evaluates templates, its steps come to a configuration that has no next
    one.  This holds a tree or an error, which is the result of the expansion, with what was printed
    and the template scopes.  On the way there the counter of the methods never passes
    `Evaluator.nesting`, and it is the number of methods that have been entered and not left.
    Wherever a method is called the call comes to a value or an error, with the counter as it was;
    so is the counter wherever no more and no less is waited for than at the call. -/
theorem LoadedUnit.runs_to_end (u : LoadedUnit) (compiler : TemplateService) (call : Node)
    (scopes : Scopes Node) :
    let env : Evaluator := ⟨u, compiler⟩
    let expanded := u.expand compiler call scopes
    ∃ last : Config, env.Reaches (env.start call scopes) last ∧ env.step last = none ∧
      last.focus = .done (expanded.result.map .node) ∧ last.machine.output = expanded.output ∧
      last.machine.scopes = expanded.scopes ∧ last.depth = 0 ∧
      ∀ c : Config, env.Reaches (env.start call scopes) c →
        env.Reaches c last ∧ c.depth = c.entered ∧ c.depth ≤ nesting ∧
        ∀ name args, c.focus = .call name args →
          (∃ r m, env.Reaches c ⟨.done r, c.stack, c.depth, m⟩) ∧
          ∀ c', env.Reaches c c' → c'.stack = c.stack → c'.depth = c.depth := by
  intro env expanded
  have hrun := @reaches_run env call scopes
  refine ⟨_, hrun, rfl, rfl, rfl, rfl, rfl, ?_⟩
  intro c hc
  have hcounted : c.Counted := (counted_start call scopes).reaches hc
  -- every configuration has one next step at most, so all of them lie on the way to the end
  refine ⟨hrun.of_end rfl hc, hcounted.depth, hcounted.le_nesting, ?_⟩
  intro name args hcall
  refine ⟨hcounted.returns hcall, ?_⟩
  intro c' hc' hstack
  exact hcounted.depth_eq (hcounted.reaches hc') hstack

namespace Evaluator

/-- A method that only calls itself is refused in the end, however many levels there are. -/
theorem invoke_endless {env : Evaluator} {name : String} {s : Span}
    (hmethod : env.unit.image.method? name = some ⟨name, [], ⟨s, .invoke name [] none⟩⟩) :
    ∀ (n : Nat) (m : Machine), ((env.invoke n name []).run m).1 =
      .error (.unplaced "expand" (.expansionFailed env.unit.name "stack level too deep"))
  | 0, m => by
    rw [invoke, methodFor, hmethod]
    rfl
  | n + 1, m => by
    have hbody : env.eval (env.invoke n) ⟨s, .invoke name [] none⟩ = env.invoke n name [] := by
      rw [eval, evalAll, pure_bind]
    have ih := invoke_endless hmethod n { m with frame := .ofList [] }
    rw [invoke_succ n hmethod rfl]
    show ((inFrame (.ofList []) (env.eval (env.invoke n) ⟨s, .invoke name [] none⟩)).run m).1 = _
    rw [hbody, run_inFrame]
    revert ih
    rcases (env.invoke n name []).run { m with frame := .ofList [] } with ⟨e | v, m'⟩
    · exact id
    · intro ih
      cases ih

/-- A unit whose entry method only calls itself fails to expand anything. -/
theorem run_endless {env : Evaluator} {s : Span}
    (hinit : env.unit.image.method? "initialize" = none)
    (hmethod : env.unit.image.method? Extension.entryMethod =
      some ⟨Extension.entryMethod, [], ⟨s, .invoke Extension.entryMethod [] none⟩⟩)
    (call : Node) (m : Machine) : ((env.run call).run m).1 =
      .error (.unplaced "expand" (.expansionFailed env.unit.name "stack level too deep")) := by
  have hone : env.calls call = env.invoke nesting Extension.entryMethod [] := by
    rw [calls, hinit]
    rfl
  have hcalls := invoke_endless hmethod nesting m
  rw [run_eq_calls, hone, run_bind_apply]
  revert hcalls
  rcases (env.invoke nesting Extension.entryMethod []).run m with ⟨e | v, m'⟩
  · intro hcalls
    cases hcalls
    rfl
  · intro hcalls
    cases hcalls

end Evaluator

open Evaluator in
/-- A unit whose entry method only calls itself runs to an end, which is an error. -/
theorem LoadedUnit.runs_to_end_recursive :
    let z := Span.zero
    let expand : MethodImage :=
      ⟨Extension.entryMethod, [], ⟨z, .invoke Extension.entryMethod [] none⟩⟩
    let u : LoadedUnit := ⟨"", "R", none, [expand]⟩
    let env : Evaluator := ⟨u, fun _ _ _ => pure ⟨z, .nil⟩⟩
    let call : Node := ⟨z, .invoke "m" [] none⟩
    ∃ last : Config, env.Reaches (env.start call []) last ∧ env.step last = none ∧
      last.focus =
        .done (.error (.unplaced "expand" (.expansionFailed "R" "stack level too deep"))) ∧
      last.depth = 0 := by
  intro z expand u env call
  obtain ⟨last, hreach, hend, hfocus, -, -, hdepth, -⟩ :=
    LoadedUnit.runs_to_end u env.compiler call []
  refine ⟨last, hreach, hend, ?_, hdepth⟩
  have hresult : (u.expand env.compiler call []).result = _ :=
    (result_expand env call []).trans (run_endless (s := z) rfl rfl call _)
  rw [hfocus, hresult]
  rfl

end Quasiquote
