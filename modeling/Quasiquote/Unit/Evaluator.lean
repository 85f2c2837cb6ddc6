import Quasiquote.Unit.Lowering
import Quasiquote.Unit.Value
import Quasiquote.Macro.Extension
import Quasiquote.Word

namespace Quasiquote

/-!
# The evaluator — how a unit expands a call

A unit is run in two steps: its constructor is given the compiler and the call,
and then its entry method answers the tree that replaces the call.  Calls of
methods nest at most `Evaluator.nesting` deep.

* `Machine`, `RunM` — the state of a run, and computations on it;
* `Evaluator.send` — the built-in methods of values;
* `Evaluator.eval` — the value of a tree, given how methods are called;
* `Evaluator.invoke` — the call of a method;
* `LoadedUnit.expand` — the tree that replaces a call.
-/

/-- The state of a running unit. -/
structure Machine where
  /-- The local variables of the method that runs. -/
  frame : NameMap Value := {}
  fields : NameMap Value := {}
  /-- What has been printed. -/
  output : String := ""
  scopes : Scopes Node

/-- Computations of a running unit. -/
abbrev RunM := ExceptT Diagnostic (StateM Machine)

/-- How the compiler turns the text of a template, its label and the values of its
    holes into a tree. -/
abbrev TemplateService := String → String → List Node → TemplateM Node

/-- What a run depends on: the unit, and the compiler that runs it. -/
structure Evaluator where
  unit : LoadedUnit
  compiler : TemplateService

namespace Evaluator

/-- How deep calls of methods may nest. -/
def nesting : Nat := 256

variable (env : Evaluator)

/-- Ends a run. -/
def fail {α : Type} (reason : String) : RunM α :=
  throw (.unplaced "expand" (.expansionFailed env.unit.name reason))

/-- Counts arguments in a message. -/
def countText (n : Nat) : String := " with " ++ toString n ++ " argument(s)"

/-! ### Numbers -/

/-- An exact integer result, or the failure of the operation. -/
def exactly (a : Int) (op : String) (b : Int) (result : Option Int) : RunM Value :=
  match result.bind Word.exact with
  | some i => pure (.int i)
  | none => env.fail ("integer overflow or division by zero in " ++ toString a ++ " " ++ op ++
      " " ++ toString b)

/-- An operator between integers. -/
def intOperator (a : Int) (op : String) (b : Int) : RunM Value :=
  match op with
  | "+" => env.exactly a op b (some (a + b))
  | "-" => env.exactly a op b (some (a - b))
  | "*" => env.exactly a op b (some (a * b))
  | "/" => env.exactly a op b (if b = 0 then none else some (a.tdiv b))
  | "%" =>
    -- The quotient has to be a word too.
    env.exactly a op b
      (if b = 0 then none else (Word.exact (a.tdiv b)).map fun _ => a.tmod b)
  | "<" => pure (.bool (a < b))
  | "<=" => pure (.bool (a ≤ b))
  | ">" => pure (.bool (a > b))
  | ">=" => pure (.bool (a ≥ b))
  | _ => env.fail ("undefined method '" ++ op ++ "' for Int")

/-- An operator between floats. -/
def floatOperator (a : Float) (op : String) (b : Float) : RunM Value :=
  match op with
  | "+" => pure (.float (a + b))
  | "-" => pure (.float (a - b))
  | "*" => pure (.float (a * b))
  | "/" => pure (.float (a / b))
  | "<" => pure (.bool (a < b))
  | "<=" => pure (.bool (a ≤ b))
  | ">" => pure (.bool (b < a))
  | ">=" => pure (.bool (b ≤ a))
  | _ => env.fail ("undefined method '" ++ op ++ "' for Float")

/-- The integer with its sign changed. -/
def negate (i : Int) : RunM Value :=
  match Word.exact (-i) with
  | some j => pure (.int j)
  | none => env.fail ("integer overflow in -(" ++ toString i ++ ")")

/-! ### Trees -/

/-- The position that a value names. -/
def position : Value → RunM Nat
  | .int (.ofNat n) => pure n
  | v => env.fail ("argument index must be a non-negative Int, got " ++ v.typeName)

/-- A value that may be absent. -/
def orNil {α : Type} (f : α → Value) : Option α → Value
  | some x => f x
  | none => .nil

/-- The methods of syntax trees. -/
def nodeMethod (n : Node) (name : String) (args : List Value) : RunM Value :=
  match name, args with
  | "argument", [i] => do
    let i ← env.position i
    match n.callArgs[i]? with
    | some a => pure (.node a)
    | none => env.fail ("call has no argument " ++ toString i)
  | "argument_or", [i, default] => do
    let i ← env.position i
    match n.callArgs[i]? with
    | some a => pure (.node a)
    | none => pure default
  | "argument_count", [] => pure (.int n.callArgs.length)
  | "block", [] => pure (orNil .node n.callBlock)
  | "name", [] => pure (orNil .str n.callName)
  | "target", [] => match n.form with
    | .call target _ _ _ => pure (.node target)
    | _ => pure .nil
  | "body", [] => match n.form with
    | .block _ body _ => pure (.node body)
    | _ => pure .nil
  | "params", [] => match n.form with
    | .block params _ _ => pure (.int params.length)
    | _ => pure .nil
  | _, _ => env.fail ("undefined method '" ++ name ++ "' for Node" ++ countText args.length)

/-! ### Sending a message to a value -/

/-- The trees that stand for values. -/
def toNodes (s : Span) : List Value → RunM (List Node)
  | [] => pure []
  | v :: vs => do
    match v.toNode s with
    | .error reason => env.fail reason
    | .ok n => return n :: (← toNodes s vs)

/-- Has the compiler evaluate a template. -/
def template (text label : String) (values : List Node) : RunM Node :=
  ExceptT.mk fun m =>
    let (result, scopes) := (env.compiler text label values).run m.scopes
    (result, { m with scopes })

/-- The quoting service of the compiler. -/
def quote : List Value → RunM Value
  | .str text :: .str label :: holes => do
    return .node (← env.template text label (← env.toNodes Span.zero holes))
  | _ => env.fail "quote expects template text and a label"

/-- Prints text. -/
def emit (text : String) : RunM Value := do
  modify fun m => { m with output := m.output ++ text }
  return .nil

/-- The texts of values, one after the other. -/
def textOf (vs : List Value) : String := "".intercalate (vs.map Value.text)

/-- The methods that belong to one kind of value. -/
def sendTo (receiver : Value) (name : String) (args : List Value) : RunM Value :=
  match receiver, name, args with
  | .int i, "-@", [] => env.negate i
  | .float x, "-@", [] => pure (.float (-x))
  | .int a, op, [.int b] => env.intOperator a op b
  | .float a, op, [.float b] => env.floatOperator a op b
  | .int a, op, [.float b] => env.floatOperator (Float.ofInt a) op b
  | .float a, op, [.int b] => env.floatOperator a op (Float.ofInt b)
  | .str s, "+", [v] => pure (.str (s ++ v.text))
  | .str s, "length", [] => pure (.int s.length)
  | .node n, name, args => env.nodeMethod n name args
  | .compiler, "quote", args => env.quote args
  | .system, "out", [] => pure .stdout
  | .stdout, "println", args => emit (textOf args ++ "\n")
  | .stdout, "print", args => emit (textOf args)
  | v, name, args =>
    env.fail ("undefined method '" ++ name ++ "' for " ++ v.typeName ++ countText args.length)

/-- The value of a call with a receiver. -/
def send (receiver : Value) (name : String) (args : List Value) : RunM Value :=
  match name, args with
  | "==", [v] => pure (.bool (receiver.same v))
  | "!=", [v] => pure (.bool (!receiver.same v))
  | "!", [] => pure (.bool (!receiver.truthy))
  | "to_s", [] => pure (.str receiver.text)
  | "nil?", [] => pure (.bool receiver.isNil)
  | _, _ => env.sendTo receiver name args

/-! ### Trees and methods -/

/-- A call that is given a block. -/
def refuseBlock (name : String) : RunM Value :=
  env.fail ("'" ++ name ++ "' does not take a block")

/-- The value of an identifier: a local variable, or a call. -/
def lookup (call : String → List Value → RunM Value) (name : String) : RunM Value := do
  match (← get).frame.get? name with
  | some v => pure v
  | none =>
    if (env.unit.image.method? name).isSome then call name []
    else env.fail ("undefined local variable or method '" ++ name ++ "'")

/-- The value of a constant. -/
def constant (name : String) : RunM Value :=
  if name = "System" then pure .system else env.fail ("uninitialized constant " ++ name)

mutual

/-- The value of a tree, where `call` calls the methods of the unit. -/
def eval (call : String → List Value → RunM Value) : Node → RunM Value
  | ⟨_, .int i⟩ => pure (.int i)
  | ⟨_, .float x⟩ => pure (.float x)
  | ⟨_, .str s⟩ => pure (.str s)
  | ⟨_, .bool b⟩ => pure (.bool b)
  | ⟨_, .nil⟩ => pure .nil
  | ⟨_, .noop⟩ => pure .nil
  | ⟨_, .ident name⟩ => env.lookup call name
  | ⟨_, .assign name value⟩ => do
    let v ← eval call value
    modify fun m => { m with frame := m.frame.insert name v }
    return v
  | ⟨_, .field name⟩ => do return ((← get).fields.get? name).getD .nil
  | ⟨_, .fieldAssign name value⟩ => do
    let v ← eval call value
    modify fun m => { m with fields := m.fields.insert name v }
    return v
  | ⟨_, .constant name⟩ => env.constant name
  | ⟨_, .call _ name _ (some _)⟩ => env.refuseBlock name
  | ⟨_, .call target "&&" [rhs] none⟩ => do
    let v ← eval call target
    if v.truthy then eval call rhs else pure v
  | ⟨_, .call target "||" [rhs] none⟩ => do
    let v ← eval call target
    if v.truthy then pure v else eval call rhs
  | ⟨_, .call target name args none⟩ => do
    let v ← eval call target
    let vs ← evalAll call args
    env.send v name vs
  | ⟨_, .invoke name _ (some _)⟩ => env.refuseBlock name
  | ⟨_, .invoke name args none⟩ => do
    let vs ← evalAll call args
    call name vs
  | ⟨_, .cond test yes no⟩ => do
    let v ← eval call test
    if v.truthy then eval call yes else evalOpt call no
  | ⟨_, .body items⟩ => evalLast call .nil items
  | ⟨s, .block params body brace⟩ => pure (.node ⟨s, .block params body brace⟩)
  | ⟨_, .error message⟩ => env.fail message
  | n => env.fail ("cannot evaluate " ++ n.describe)

/-- The values of several trees. -/
def evalAll (call : String → List Value → RunM Value) : List Node → RunM (List Value)
  | [] => return []
  | n :: ns => do
    let v ← eval call n
    let vs ← evalAll call ns
    return v :: vs

/-- The value of a tree that may be absent. -/
def evalOpt (call : String → List Value → RunM Value) : Option Node → RunM Value
  | none => return .nil
  | some n => eval call n

/-- The value of the last of several trees, or `v` if there is none. -/
def evalLast (call : String → List Value → RunM Value) (v : Value) : List Node → RunM Value
  | [] => return v
  | n :: ns => do
    let v ← eval call n
    evalLast call v ns

end

/-- The method that a call means, if the call fits it. -/
def methodFor (name : String) (args : List Value) : RunM MethodImage :=
  match env.unit.image.method? name with
  | none => env.fail ("undefined method '" ++ name ++ "'")
  | some m =>
    if m.params.length = args.length then pure m
    else env.fail ("wrong number of arguments for '" ++ name ++ "' (" ++
      toString args.length ++ " for " ++ toString m.params.length ++ ")")

/-- Runs a computation with local variables of its own. -/
def inFrame (frame : NameMap Value) (body : RunM Value) : RunM Value := do
  let outer := (← get).frame
  modify fun m => { m with frame }
  let v ← body
  modify fun m => { m with frame := outer }
  return v

/-- Calls a method, with `n` levels left for calls to nest. -/
def invoke : Nat → String → List Value → RunM Value
  | 0, name, args => do
    let _ ← env.methodFor name args
    env.fail "stack level too deep"
  | n + 1, name, args => do
    let m ← env.methodFor name args
    inFrame (.ofList (m.params.zip args)) (env.eval (invoke n) m.body)

/-- Runs a unit on a call. -/
def run (call : Node) : RunM Node := do
  if (env.unit.image.method? "initialize").isSome then
    let _ ← env.invoke nesting "initialize" [.compiler, .node call]
  let v ← env.invoke nesting Extension.entryMethod []
  match v.toNode call.span with
  | .ok n => return n
  | .error reason => env.fail reason

end Evaluator

/-- What became of the expansion of a call. -/
structure Expanded where
  result : Except Diagnostic Node
  /-- What was printed meanwhile. -/
  output : String
  scopes : Scopes Node

/-- Expands a call, starting from the given template scopes. -/
def LoadedUnit.expand (u : LoadedUnit) (compiler : TemplateService) (call : Node)
    (scopes : Scopes Node) : Expanded :=
  let (result, m) := ((Evaluator.mk u compiler).run call).run { scopes }
  ⟨result, m.output, m.scopes⟩

end Quasiquote
