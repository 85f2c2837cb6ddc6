import Quasiquote.Proofs.Macro.Accepted
import Quasiquote.Proofs.NameMap
import Quasiquote.Proofs.Node.Parts
import Quasiquote.Proofs.Unit.Lowering
import Quasiquote.Unit.Evaluator

namespace Quasiquote

/-!
# Binding — how a call reaches the body of its macro

A call that a macro accepts is expanded by the unit of the macro.  The entry method takes the call
apart and calls the method of the authored body, once, with a value for each parameter.  It cannot
miss an argument, since the definition was accepted and its signature fits the call.

* `Extension.Binds` — what a call hands over for the arguments of a macro;
* `Extension.ofProgram_ofSpec` — the image of a macro's class;
* `Evaluator.evalAll_handedOn` — what the entry method evaluates;
* `Extension.parameters_bound` — an accepted call binds every parameter.
-/

/-! ### The image of a macro -/

namespace Extension

/-- What the entry method of an image hands on for the arguments from a position on. -/
def handedOn (s : Span) (label : String) (position : Int) : List Argument → List Node
  | [] => []
  | .required _ :: args =>
    askCall s "argument" [⟨s, .int position⟩] :: handedOn s label (position + 1) args
  | .optional _ default :: args =>
    askCall s "argument_or"
      [⟨s, .int position⟩, Node.quoteCall s default.print label []] ::
        handedOn s label (position + 1) args
  | .block _ _ :: args => askCall s "block" [] :: handedOn s label position args

/-- The image of a macro whose authored body is lowered to `body`. -/
def image (unit : String) (m : MacroSpec) (s : Span) (body : Node) : UnitImage :=
  ⟨unit, some extensionType,
    [⟨"initialize", ["mirah", "call"], ⟨s, .body [keep s "mirah", keep s "call"]⟩⟩,
      ⟨entryMethod, [], ⟨s, .body [⟨s, .invoke bodyMethod
        (handedOn s (unit ++ "#" ++ entryMethod) 0 m.args) none⟩]⟩⟩,
      ⟨bodyMethod, m.args.map Argument.name, body⟩]⟩

open Node in
/-- What is handed on is lowered, the defaults to their texts. -/
theorem lowerList_forwarded (s : Span) (label : String) {args : List Argument}
    (h : ∀ a ∈ args, ∀ d ∈ a.default, d.holes = []) (i : Int) :
    lowerList label (forwarded s i args) = pure (handedOn s label i args) := by
  induction args generalizing i with
  | nil => rfl
  | cons a args ih =>
    have hrest := ih fun b hb => h b (List.mem_cons_of_mem _ hb)
    cases a with
    | required name =>
      rw [forwarded, lowerList, hrest]
      rfl
    | optional name d =>
      have hd : d.holes = [] := h _ List.mem_cons_self d rfl
      rw [forwarded, lowerList, hrest]
      simp only [askCall, callField, lower, lowerList, lowerOpt, lowerHoles_eq,
        templateText_of_holes_nil hd, hd]
      rfl
    | block name optional =>
      rw [forwarded, lowerList, hrest]
      rfl

open Node in
/-- The class of a macro is compiled, and to nothing but its image. -/
theorem ofProgram_ofSpec (unit : String) (m : MacroSpec) (s : Span)
    (h : ∀ a ∈ m.args, ∀ d ∈ a.default, d.holes = []) :
    ∃ body, lower (unit ++ "#" ++ bodyMethod) m.body = pure body ∧
      Artifacts.ofProgram (ofSpec unit m s) =
        pure (({} : Artifacts).insert unit (Artifact.sealed (image unit m s body)).encode) := by
  -- of the authored body all that is known is that it is lowered to something
  obtain ⟨body, hbody, -⟩ := exists_lowered (unit ++ "#" ++ bodyMethod) m.body
  have hargs := lowerList_forwarded s (unit ++ "#" ++ entryMethod) h 0
  have hparams : (m.args.map fun a => Parameter.typed a.name (parameterType a)).map Parameter.name =
      m.args.map Argument.name := by
    rw [List.map_map]
    rfl
  have hmethods : UnitImage.ofClass unit (some extensionType)
      ⟨s, .body [constructor s, entry m s, authored m]⟩ = pure (image unit m s body) := by
    simp only [UnitImage.ofClass, statements_body, constructor, entry, authored,
      UnitImage.methodsOf, keep, lower, lowerList, lowerOpt, hbody, hargs, hparams]
    rfl
  refine ⟨body, hbody, ?_⟩
  simp only [Artifacts.ofProgram, ofSpec, statements, Artifacts.addClasses, hmethods]
  rfl

/-! ### What a call hands over -/

/-- The trees that the defaults of arguments are evaluated to, one after the other. -/
def defaults (compiler : TemplateService) (label : String) :
    List Argument → TemplateM (List (Option Node))
  | [] => return []
  | .optional _ default :: args => do
    let n ← compiler default.print label []
    let ns ← defaults compiler label args
    return some n :: ns
  | _ :: args => do
    let ns ← defaults compiler label args
    return none :: ns

/-- What a call with some arguments, with or without a block, hands over for the arguments of a
    macro, where the defaults are evaluated to `ds`. -/
structure Binds (args : List Argument) (given : List Node) (block : Option Node)
    (ds : List (Option Node)) (vs : List Value) : Prop where
  length : vs.length = args.length
  required {i : Nat} {name : String} (h : args[i]? = some (.required name)) :
    ∃ n, given[i]? = some n ∧ vs[i]? = some (.node n)
  optional {i : Nat} {name : String} {default : Node}
    (h : args[i]? = some (.optional name default)) :
    ∃ n, (given[i]? = some n ∨ given[i]? = none ∧ ds[i]? = some (some n)) ∧
      vs[i]? = some (.node n)
  block {i : Nat} {name : String} {absent : Bool} (h : args[i]? = some (.block name absent)) :
    vs[i]? = some (Evaluator.orNil .node block)

namespace Binds

variable {args : List Argument} {given : List Node} {block : Option Node} {ds : List (Option Node)}
  {vs : List Value}

theorem nil : Binds [] given block [] [] where
  length := rfl
  required h := by cases h
  optional h := by cases h
  block h := by cases h

theorem cons_required {n : Node} (h : Binds args given block ds vs) (name : String) :
    Binds (.required name :: args) (n :: given) block (none :: ds) (.node n :: vs) where
  length := congrArg (· + 1) h.length
  required {i _} hi := by
    cases i with
    | zero => exact ⟨n, rfl, rfl⟩
    | succ i => exact h.required hi
  optional {i _ _} hi := by
    cases i with
    | zero => cases hi
    | succ i => exact h.optional hi
  block {i _ _} hi := by
    cases i with
    | zero => cases hi
    | succ i => exact h.block hi

/-- An optional argument is bound to what is given for it, or else to its default. -/
theorem cons_optional (h : Binds args given.tail block ds vs) (name : String) (default d : Node) :
    Binds (.optional name default :: args) given block (some d :: ds)
      (.node (given.head?.getD d) :: vs) where
  length := congrArg (· + 1) h.length
  required {i _} hi := by
    cases i with
    | zero => cases hi
    | succ i => simpa using h.required hi
  optional {i _ _} hi := by
    cases i with
    | zero =>
      cases given with
      | nil => exact ⟨d, .inr ⟨rfl, rfl⟩, rfl⟩
      | cons n given => exact ⟨n, .inl rfl, rfl⟩
    | succ i => simpa using h.optional hi
  block {i _ _} hi := by
    cases i with
    | zero => cases hi
    | succ i => exact h.block hi

theorem of_block (name : String) (absent : Bool) :
    Binds [.block name absent] given block [none] [Evaluator.orNil .node block] where
  length := rfl
  required {i _} hi := by
    cases i with
    | zero => cases hi
    | succ i => cases hi
  optional {i _ _} hi := by
    cases i with
    | zero => cases hi
    | succ i => cases hi
  block {i _ _} hi := by
    cases i with
    | zero => rfl
    | succ i => cases hi

end Binds

end Extension

/-! ### The entry method -/

namespace Evaluator

open Extension

variable {env : Evaluator} {call : Node} {m : Machine} {f : String → List Value → RunM Value}

/-- Whether a unit keeps the compiler and a call in its fields. -/
structure Serves (m : Machine) (call : Node) : Prop where
  compiler : m.fields.get? "mirah" = some .compiler
  call : m.fields.get? "call" = some (.node call)

theorem eval_field {name : String} {v : Value} (h : m.fields.get? name = some v) (s : Span) :
    (env.eval f ⟨s, .field name⟩).run m = (.ok v, m) := by
  rw [eval, run_bind_apply, run_get_apply]
  dsimp only
  rw [h]
  rfl

/-- A method of the call is asked for its value. -/
theorem eval_askCall (hm : Serves m call) (s : Span) {name : String} (hand : name ≠ "&&")
    (hor : name ≠ "||") (args : List Node) :
    (env.eval f (askCall s name args)).run m =
      (do
        let vs ← env.evalAll f args
        env.send (.node call) name vs : RunM Value).run m := by
  rw [askCall, callField, eval]
  · rw [run_bind_apply, eval_field hm.call]
  · exact fun _ h _ => hand h
  · exact fun _ h _ => hor h

theorem evalAll_cons {n : Node} {ns : List Node} {v : Value} {vs : List Value} {m' m'' : Machine}
    (hn : (env.eval f n).run m = (.ok v, m')) (hns : (env.evalAll f ns).run m' = (.ok vs, m'')) :
    (env.evalAll f (n :: ns)).run m = (.ok (v :: vs), m'') := by
  rw [evalAll, run_bind_apply, hn]
  dsimp only
  rw [run_bind_apply, hns]
  rfl

theorem evalAll_position (i : Nat) (s : Span) :
    env.evalAll f [⟨s, .int i⟩] = pure [.int i] := by
  simp [evalAll, eval]

/-- The argument of the call at a position where there is one. -/
theorem eval_argument (hm : Serves m call) {i : Nat} {n : Node} (h : call.callArgs[i]? = some n)
    (s : Span) : (env.eval f (askCall s "argument" [⟨s, .int i⟩])).run m = (.ok (.node n), m) := by
  rw [eval_askCall hm s (by decide) (by decide), evalAll_position, pure_bind]
  show (env.nodeMethod call "argument" [.int (.ofNat i)]).run m = _
  rw [nodeMethod, position, pure_bind, h]
  rfl

/-- A quote without holes is evaluated by the compiler. -/
theorem eval_quoteCall (hm : Serves m call) (s : Span) {text label : String} {d : Node}
    {scopes : Scopes Node} (h : (env.compiler text label []).run m.scopes = (.ok d, scopes)) :
    (env.eval f (Node.quoteCall s text label [])).run m = (.ok (.node d), { m with scopes }) := by
  rw [Node.quoteCall, eval]
  · rw [run_bind_apply, eval_field hm.compiler]
    have hargs : env.evalAll f [⟨s, .str text⟩, ⟨s, .str label⟩] =
        pure [.str text, .str label] := by
      simp [evalAll, eval]
    dsimp only
    rw [hargs, pure_bind]
    show (env.quote [.str text, .str label]).run m = _
    have htemplate : (env.template text label []).run m = (.ok d, { m with scopes }) := by
      show Prod.map id _ ((env.compiler text label []).run m.scopes) = _
      rw [h]
      rfl
    rw [quote, toNodes, pure_bind, run_bind_apply, htemplate]
    rfl
  · exact fun _ h _ => absurd h (by decide)
  · exact fun _ h _ => absurd h (by decide)

/-- The argument of the call at a position, or else a default. -/
theorem eval_argument_or (hm : Serves m call) (i : Nat) (s : Span) {text label : String}
    {d : Node} {scopes : Scopes Node}
    (h : (env.compiler text label []).run m.scopes = (.ok d, scopes)) :
    (env.eval f (askCall s "argument_or" [⟨s, .int i⟩, Node.quoteCall s text label []])).run m =
      (.ok (.node (call.callArgs[i]?.getD d)), { m with scopes }) := by
  have hargs : (env.evalAll f [⟨s, .int i⟩, Node.quoteCall s text label []]).run m =
      (.ok [.int i, .node d], { m with scopes }) := by
    refine evalAll_cons (by rw [eval]; rfl) (evalAll_cons (eval_quoteCall hm s h) ?_)
    rw [evalAll]
    rfl
  rw [eval_askCall hm s (by decide) (by decide), run_bind_apply, hargs]
  show (env.nodeMethod call "argument_or" [.int (.ofNat i), .node d]).run { m with scopes } = _
  rw [nodeMethod, position, pure_bind]
  cases call.callArgs[i]? <;> rfl

/-- The block of the call. -/
theorem eval_block (hm : Serves m call) (s : Span) :
    (env.eval f (askCall s "block" [])).run m = (.ok (orNil .node call.callBlock), m) := by
  rw [eval_askCall hm s (by decide) (by decide), evalAll, pure_bind]
  rfl

open MacroSpec in
/-- The entry method hands on what the call hands over. -/
theorem evalAll_handedOn {args : List Argument} {earlier : List String} {opt : Bool}
    (hargs : Accepted earlier opt args) {s : Span} {label : String} :
    ∀ {i : Nat} {m : Machine} {ds : List (Option Node)} {scopes : Scopes Node}, Serves m call →
      (args.map Argument.kind).count .required ≤ (call.callArgs.drop i).length →
      (defaults env.compiler label args).run m.scopes = (.ok ds, scopes) →
      ∃ vs, (env.evalAll f (handedOn s label i args)).run m = (.ok vs, { m with scopes }) ∧
        Binds args (call.callArgs.drop i) call.callBlock ds vs := by
  induction hargs with
  | nil =>
    intro i m ds scopes hm hcount hds
    cases hds
    exact ⟨[], by rw [handedOn, evalAll]; rfl, .nil⟩
  | @required earlier name args hname hargs ih =>
    intro i m ds scopes hm hcount hds
    obtain ⟨ds, t, hrest, hds⟩ := exists_of_run_bind hds
    cases hds
    -- a required argument counts, so it is there
    have hlt : i < call.callArgs.length := by
      simp only [List.map_cons, Argument.kind, List.count_cons_self, List.length_drop] at hcount
      omega
    obtain ⟨vs, hvs, hbinds⟩ := ih (i := i + 1) hm (by
      simp only [List.map_cons, Argument.kind, List.count_cons_self, List.length_drop] at hcount ⊢
      omega) hrest
    refine ⟨_, evalAll_cons (eval_argument hm (List.getElem?_eq_getElem hlt) s) hvs, ?_⟩
    rw [List.drop_eq_getElem_cons hlt]
    exact hbinds.cons_required name
  | @optional earlier opt name default args hname hargs ih =>
    intro i m ds scopes hm hcount hds
    obtain ⟨d, t, hd, hds⟩ := exists_of_run_bind hds
    obtain ⟨ds, t', hrest, hds⟩ := exists_of_run_bind hds
    cases hds
    -- the default is evaluated whether it is needed or not, and nothing behind it is required
    obtain ⟨vs, hvs, hbinds⟩ := ih (i := i + 1) (m := { m with scopes := t }) ⟨hm.1, hm.2⟩
      (hargs.count_required ▸ Nat.zero_le _) hrest
    refine ⟨_, evalAll_cons (eval_argument_or hm i s hd) hvs, ?_⟩
    rw [← List.head?_drop]
    refine Binds.cons_optional ?_ name default d
    rwa [List.tail_drop]
  | @block earlier opt name absent hname =>
    intro i m ds scopes hm hcount hds
    obtain ⟨ds, t, hrest, hds⟩ := exists_of_run_bind hds
    cases hds
    cases hrest
    exact ⟨_, evalAll_cons (eval_block hm s) (by rw [handedOn, evalAll]; rfl),
      .of_block name absent⟩

/-! ### Calls of methods -/

/-- A computation with local variables of its own leaves the others as they were. -/
theorem run_inFrame (frame : NameMap Value) (x : RunM Value) (m : Machine) :
    (inFrame frame x).run m = match x.run { m with frame } with
      | (.ok v, m') => (.ok v, { m' with frame := m.frame })
      | (.error e, m') => (.error e, m') := by
  rw [inFrame, run_bind_apply, run_get_apply]
  show (do
    modify fun m => { m with frame }
    let v ← x
    modify fun m' => { m' with frame := m.frame }
    return v : RunM Value).run m = _
  rw [run_bind_apply]
  show (do
    let v ← x
    modify fun m' => { m' with frame := m.frame }
    return v : RunM Value).run { m with frame } = _
  rw [run_bind_apply]
  rcases x.run { m with frame } with ⟨e | v, m'⟩ <;> rfl

/-- A call that fits a method runs its body, with the parameters as local variables. -/
theorem invoke_succ {method : MethodImage} {name : String} {args : List Value} (n : Nat)
    (hmethod : env.unit.image.method? name = some method)
    (hargs : method.params.length = args.length) :
    env.invoke (n + 1) name args =
      inFrame (.ofList (method.params.zip args)) (env.eval (env.invoke n) method.body) := by
  rw [invoke, methodFor, hmethod]
  dsimp only
  rw [if_pos hargs, pure_bind]

/-- A parameter that is kept in a field. -/
theorem eval_keep {name : String} {v : Value} (h : m.frame.get? name = some v) (s : Span) :
    (env.eval f (keep s name)).run m = (.ok v, { m with fields := m.fields.insert name v }) := by
  have hname : (env.eval f ⟨s, .ident name⟩).run m = (.ok v, m) := by
    rw [eval, lookup, run_bind_apply, run_get_apply]
    dsimp only
    rw [h]
    rfl
  rw [keep, eval, run_bind_apply, hname]
  rfl

/-- The fields of a unit that expands a call. -/
def keptFields (call : Node) : NameMap Value :=
  (({} : NameMap Value).insert "mirah" .compiler).insert "call" (.node call)

theorem serves_keptFields (call : Node) (scopes : Scopes Node) :
    Serves { fields := keptFields call, scopes } call where
  compiler := by simp [keptFields, NameMap.get?_insert]
  call := by simp [keptFields]

/-- The constructor keeps the compiler and the call. -/
theorem invoke_constructor {s : Span} (n : Nat) (scopes : Scopes Node)
    (hmethod : env.unit.image.method? "initialize" =
      some ⟨"initialize", ["mirah", "call"], ⟨s, .body [keep s "mirah", keep s "call"]⟩⟩) :
    (env.invoke (n + 1) "initialize" [.compiler, .node call]).run { scopes } =
      (.ok (.node call), { fields := keptFields call, scopes }) := by
  have hnames : ((["mirah", "call"].zip [Value.compiler, .node call]).map Prod.fst).Nodup := by
    simp
  have hmirah : (NameMap.ofList (["mirah", "call"].zip [Value.compiler, .node call])).get? "mirah" =
      some .compiler := by rw [NameMap.get?_ofList hnames]; rfl
  have hcall : (NameMap.ofList (["mirah", "call"].zip [Value.compiler, .node call])).get? "call" =
      some (.node call) := by rw [NameMap.get?_ofList hnames]; rfl
  rw [invoke_succ n hmethod rfl, run_inFrame, eval, evalLast, run_bind_apply, eval_keep hmirah]
  dsimp only
  rw [evalLast, run_bind_apply, eval_keep hcall]
  rfl

/-- Methods of the image of a macro. -/
theorem method?_image (unit : String) (spec : MacroSpec) (s : Span) (body : Node) :
    (image unit spec s body).method? "initialize" =
        some ⟨"initialize", ["mirah", "call"], ⟨s, .body [keep s "mirah", keep s "call"]⟩⟩ ∧
      (image unit spec s body).method? entryMethod = some ⟨entryMethod, [], ⟨s, .body [⟨s, .invoke
        bodyMethod (handedOn s (unit ++ "#" ++ entryMethod) 0 spec.args) none⟩]⟩⟩ ∧
      (image unit spec s body).method? bodyMethod =
        some ⟨bodyMethod, spec.args.map Argument.name, body⟩ := by
  simp [image, UnitImage.method?, entryMethod, bodyMethod]

/-- The tree that a unit answers for a call. -/
def answer (env : Evaluator) (call : Node) (v : Value) : RunM Node :=
  match v.toNode call.span with
  | .ok n => return n
  | .error reason => env.fail reason

/-- A call of a method leaves the local variables of its caller as they were. -/
theorem frame_invoke {n : Nat} {name : String} {args : List Value} {m m' : Machine} {v : Value}
    (h : (env.invoke n name args).run m = (.ok v, m')) : m'.frame = m.frame := by
  cases n with
  | zero =>
    obtain ⟨_, t, -, h⟩ := exists_of_run_bind h
    cases h
  | succ n =>
    obtain ⟨method, t, hmethod, h⟩ := exists_of_run_bind h
    have ht : t = m := by
      unfold methodFor at hmethod
      split at hmethod
      · cases hmethod
      · split at hmethod <;> cases hmethod
        rfl
    rw [run_inFrame] at h
    revert h
    rcases (env.eval (env.invoke n) method.body).run _ with ⟨e | v, t'⟩
    · exact fun h => by cases h
    · intro h
      -- the local variables of the caller are put back
      cases h
      rw [ht]

/-- The entry method calls the method of the authored body, once, and does nothing else. -/
theorem invoke_entry {s : Span} {args : List Node} {vs : List Value} {m m' : Machine} (n : Nat)
    (hmethod : env.unit.image.method? entryMethod =
      some ⟨entryMethod, [], ⟨s, .body [⟨s, .invoke bodyMethod args none⟩]⟩⟩)
    (hvs : (env.evalAll (env.invoke n) args).run { m with frame := {} } = (.ok vs, m'))
    (hframe : m.frame = {}) (hframe' : m'.frame = {}) :
    (env.invoke (n + 1) entryMethod []).run m = (env.invoke n bodyMethod vs).run m' := by
  have hbody : (env.eval (env.invoke n) ⟨s, .body [⟨s, .invoke bodyMethod args none⟩]⟩).run
      { m with frame := {} } = (env.invoke n bodyMethod vs).run m' := by
    rw [eval, evalLast, eval, bind_assoc, run_bind_apply, hvs]
    dsimp only
    simp only [evalLast, bind_pure]
  rw [invoke_succ n hmethod rfl, run_inFrame]
  rw [show (NameMap.ofList (([] : List String).zip ([] : List Value))) = {} from rfl, hbody]
  cases hcall : (env.invoke n bodyMethod vs).run m' with
  | mk r m'' =>
    cases r with
    | error e => rfl
    | ok v =>
      -- the local variables of the entry method are none, and so are those of its caller
      have hsame : m''.frame = m.frame := (frame_invoke hcall).trans (hframe'.trans hframe.symm)
      rw [← hsame]

open MacroSpec in
/-- A unit expands a call by one call of the authored body, with what the call hands over. -/
theorem run_eq {unit : String} {spec : MacroSpec} {s : Span} {body : Node}
    (hunit : env.unit.image = image unit spec s body) (hargs : Accepted [] false spec.args)
    (hcount : spec.signature.required ≤ call.callArgs.length) {ds : List (Option Node)}
    {scopes scopes' : Scopes Node}
    (hds : (defaults env.compiler (unit ++ "#" ++ entryMethod) spec.args).run scopes =
      (.ok ds, scopes')) :
    ∃ vs, Binds spec.args call.callArgs call.callBlock ds vs ∧
      (env.run call).run { scopes } =
        (env.invoke (nesting - 1) bodyMethod vs >>= env.answer call).run
          { fields := keptFields call, scopes := scopes' } := by
  -- the constructor, then the entry method, which is the only one that calls another
  obtain ⟨hconstructor, hentry, -⟩ := method?_image unit spec s body
  rw [← hunit] at hconstructor hentry
  obtain ⟨vs, hvs, hbinds⟩ := evalAll_handedOn (f := env.invoke (nesting - 1)) (s := s) (i := 0)
    hargs (serves_keptFields call scopes) hcount hds
  refine ⟨vs, hbinds, ?_⟩
  have hrun : env.run call = env.invoke nesting "initialize" [.compiler, .node call] >>= fun _ =>
      env.invoke nesting entryMethod [] >>= env.answer call := by
    rw [run, hconstructor]
    rfl
  have hstart : (env.invoke nesting "initialize" [.compiler, .node call]).run { scopes } =
      (.ok (.node call), { fields := keptFields call, scopes }) :=
    invoke_constructor (nesting - 1) scopes hconstructor
  have hexpand : (env.invoke nesting entryMethod []).run { fields := keptFields call, scopes } =
      (env.invoke (nesting - 1) bodyMethod vs).run
        { fields := keptFields call, scopes := scopes' } :=
    invoke_entry (nesting - 1) hentry hvs rfl rfl
  rw [hrun, run_bind_apply, hstart]
  dsimp only
  rw [run_bind_apply, hexpand, ← run_bind_apply]

end Evaluator

/-! ### Accepted calls -/

namespace Extension

open Evaluator MacroSpec

/-- Each parameter is a local variable with the value that is handed over for it. -/
theorem Binds.get?_frame {args : List Argument} {given : List Node} {block : Option Node}
    {ds : List (Option Node)} {vs : List Value} (h : Binds args given block ds vs)
    (hnames : (args.map Argument.name).Nodup) {i : Nat} {a : Argument} {v : Value}
    (ha : args[i]? = some a) (hv : vs[i]? = some v) :
    (NameMap.ofList ((args.map Argument.name).zip vs)).get? a.name = some v := by
  have hkeys : ((args.map Argument.name).zip vs).map Prod.fst = args.map Argument.name :=
    List.map_fst_zip (Nat.le_of_eq ((List.length_map _).trans h.length.symm))
  have hmem : (a.name, v) ∈ (args.map Argument.name).zip vs :=
    List.mem_of_getElem? (List.getElem?_zip_eq_some.2 ⟨by rw [List.getElem?_map, ha]; rfl, hv⟩)
  have hnodup : (((args.map Argument.name).zip vs).map Prod.fst).Nodup := by rwa [hkeys]
  rw [NameMap.get?_ofList hnodup]
  exact NameMap.find_of_mem hnodup hmem

/-- An accepted call binds every parameter.  The class of an accepted macro is compiled to an image,
    and nothing else.  Wherever the defaults can be evaluated, a unit with this image expands a call
    that fits the macro, or its form without an optional block, by calling the method of the
    authored body exactly once.  The method is given as many values as it has parameters: the
    argument of the call at the same position if there is one, else the value of the default, and
    the block of the call or `nil`.  They are its local variables when the authored body starts, so
    no call ends for the want of an argument before that. -/
theorem parameters_bound {source keyword : String} {definition : Node} {spec : MacroSpec}
    (hspec : MacroSpec.ofCall source keyword definition = .ok spec)
    (hholes : ∀ a ∈ spec.args, ∀ d ∈ a.default, d.holes = []) (unit : String) (s : Span) :
    ∃ u body, Artifacts.ofProgram (ofSpec unit spec s) =
        pure (({} : Artifacts).insert unit (Artifact.sealed u).encode) ∧
      spec.body.lower (unit ++ "#" ++ bodyMethod) = pure body ∧
      ∀ (env : Evaluator), env.unit.image = u →
      ∀ (call : Node) (form : Signature × EntryKind), form ∈ spec.forms →
        form.1.accepts call.callArgs.length call.callBlock.isSome = true →
      ∀ (scopes scopes' : Scopes Node) (ds : List (Option Node)),
        (defaults env.compiler (unit ++ "#" ++ entryMethod) spec.args).run scopes =
          (.ok ds, scopes') →
      ∃ vs, Binds spec.args call.callArgs call.callBlock ds vs ∧
        ((env.run call).run { scopes } =
          (env.invoke (nesting - 1) bodyMethod vs >>= env.answer call).run
            { fields := keptFields call, scopes := scopes' }) ∧
        let locals := NameMap.ofList ((spec.args.map Argument.name).zip vs)
        env.invoke (nesting - 1) bodyMethod vs =
          inFrame locals (env.eval (env.invoke (nesting - 2)) body) ∧
        ∀ (i : Nat) (a : Argument) (v : Value), spec.args[i]? = some a → vs[i]? = some v → locals.get? a.name = some v := by
  have haccepted := accepted_of_ofCall hspec
  obtain ⟨body, hbody, hprogram⟩ := ofProgram_ofSpec unit spec s hholes
  refine ⟨image unit spec s body, body, hprogram, hbody, ?_⟩
  intro env hunit call form hform haccepts scopes scopes' ds hds
  obtain ⟨vs, hbinds, hrun⟩ :=
    run_eq hunit haccepted (Signature.required_le hform haccepts) hds
  refine ⟨vs, hbinds, hrun, ?_, fun i a v => hbinds.get?_frame haccepted.nodup.1⟩
  have hmethod := (method?_image unit spec s body).2.2
  refine invoke_succ (nesting - 2) (hunit ▸ hmethod) ?_
  rw [List.length_map, hbinds.length]

/-- A macro with a parameter of each kind, and a call with one argument and no block. -/
theorem parameters_bound_blockless :
    let z := Span.zero
    let default : Node := ⟨z, .int 1⟩
    let authored : Node := ⟨z, .body [⟨z, .ident "a"⟩]⟩
    let spec : MacroSpec :=
      ⟨"m", [.required "a", .optional "b" default, .block "c" true], authored⟩
    let definition : Node := ⟨z, .invoke "macro" [⟨z, .invoke "m" [⟨z, .ident "a"⟩,
      ⟨z, .assign "b" default⟩, ⟨z, .blockArgument "c" true⟩] none⟩]
      (some ⟨z, .block [] authored true⟩)⟩
    let given : Node := ⟨z, .int 7⟩
    let call : Node := ⟨z, .invoke "m" [given] none⟩
    MacroSpec.ofCall "Script" "macro" definition = .ok spec ∧
    spec.signature.withoutBlock.accepts call.callArgs.length call.callBlock.isSome = true ∧
    ∃ u vs, Artifacts.ofProgram (ofSpec "Unit" spec z) =
        pure (({} : Artifacts).insert "Unit" (Artifact.sealed u).encode) ∧
      Binds spec.args [given] none [none, some default, none] vs ∧
      let env : Evaluator := ⟨⟨"", u⟩, fun _ _ _ => pure default⟩
      (env.run call).run { scopes := [] } =
        (env.invoke (nesting - 1) bodyMethod vs >>= env.answer call).run
          { fields := keptFields call, scopes := [] } := by
  intro z default authored spec definition given call
  have hspec : MacroSpec.ofCall "Script" "macro" definition = .ok spec := by rfl
  have hholes : ∀ a ∈ spec.args, ∀ d ∈ a.default, d.holes = [] := by
    simp [spec, default, Node.holes]
  obtain ⟨u, body, hprogram, -, hrun⟩ := parameters_bound hspec hholes "Unit" z
  obtain ⟨vs, hbinds, hexpand, -⟩ := hrun ⟨⟨"", u⟩, fun _ _ _ => pure default⟩ rfl call
    (spec.signature.withoutBlock, .blockless) (.tail _ (.head _)) (by rfl) [] []
    [none, some default, none] (by rfl)
  exact ⟨hspec, by rfl, u, vs, hprogram, hbinds, hexpand⟩

end Extension

end Quasiquote
