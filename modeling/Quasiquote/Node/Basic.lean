import Quasiquote.Span

namespace Quasiquote

/-!
# Nodes — the trees of programs

A node is a form together with the span it was read from.  Macro bodies, call
sites and expansions are all nodes.

* `Form`, `Node`, `Parameter`, `Argument` — the trees, declared together;
* `MacroSpec` — the name, arguments and body of a macro;
* `Node.children` — the direct parts of a node in source order;
* `Node.statements`, `Node.collapse` — a body seen as a list, and a body of one
  statement seen as that statement;
* `Node.describe` — what diagnostics call a node;
* `Node.weight` — the number of forms in a tree, macro definitions included.
-/

mutual

/-- A form and the text it stands for. -/
inductive Node where
  | mk (span : Span) (form : Form)

/-- What a node is. -/
inductive Form where
  /-- An integer literal. -/
  | int (value : Int)
  /-- A literal with a decimal point. -/
  | float (value : Float)
  | str (value : String)
  | bool (value : Bool)
  | nil
  | self
  /-- A bare identifier: a local variable, or a call without arguments. -/
  | ident (name : String)
  | assign (name : String) (value : Node)
  | field (name : String)
  | fieldAssign (name : String) (value : Node)
  | constant (name : String)
  /-- A call with a receiver; operators are calls too. -/
  | call (target : Node) (name : String) (args : List Node) (block : Option Node)
  /-- A call on `self`. -/
  | invoke (name : String) (args : List Node) (block : Option Node)
  | cond (test yes : Node) (no : Option Node)
  | body (items : List Node)
  /-- A block; `brace` tells `{ }` from `do … end`. -/
  | block (params : List String) (body : Node) (brace : Bool)
  /-- The declaration `&name` or `&name = nil` among the arguments of a macro. -/
  | blockArgument (name : String) (optional : Bool)
  | classDef (name : String) (superclass : Option String) (body : Node)
  | methodDef (name : String) (params : List Parameter) (returns : Option String) (body : Node)
  /-- A macro definition, numbered once it is registered. -/
  | macroDef (name : String) (args : List Argument) (body : Node) (id : Option Nat)
  | quote (body : Node)
  /-- A hole of a quoted body. -/
  | unquote (value : Node)
  /-- What stands where a definition stood. -/
  | noop
  /-- What stands where something failed. -/
  | error (message : String)

/-- A parameter of a method. -/
inductive Parameter where
  | mk (name : String) (typeName : Option String) (default : Option Node) (block : Bool)

/-- A declared argument of a macro. -/
inductive Argument where
  | required (name : String)
  /-- The default is used when a call leaves the argument out. -/
  | optional (name : String) (default : Node)
  /-- The flag tells whether a call may leave the block out. -/
  | block (name : String) (optional : Bool)

end

/-- The name, arguments and authored body of a macro. -/
structure MacroSpec where
  name : String
  args : List Argument
  body : Node

namespace Node

/-- The text range of a node. -/
def span : Node → Span
  | ⟨s, _⟩ => s

/-- What a node is, its position aside. -/
def form : Node → Form
  | ⟨_, f⟩ => f

/-- The same form at another place. -/
def withSpan (n : Node) (s : Span) : Node := ⟨s, n.form⟩

@[simp] theorem span_mk (s : Span) (f : Form) : (Node.mk s f).span = s := rfl

@[simp] theorem form_mk (s : Span) (f : Form) : (Node.mk s f).form = f := rfl

@[simp] theorem mk_span_form (n : Node) : Node.mk n.span n.form = n := by
  cases n; rfl

@[simp] theorem span_withSpan (n : Node) (s : Span) : (n.withSpan s).span = s := rfl

@[simp] theorem form_withSpan (n : Node) (s : Span) : (n.withSpan s).form = n.form := rfl

instance : Inhabited Node := ⟨⟨Span.zero, .nil⟩⟩

end Node

namespace Parameter

/-- The name of a parameter. -/
def name : Parameter → String
  | ⟨n, _, _, _⟩ => n

/-- The declared type, if there is one. -/
def typeName : Parameter → Option String
  | ⟨_, t, _, _⟩ => t

/-- The default value, if there is one. -/
def default : Parameter → Option Node
  | ⟨_, _, d, _⟩ => d

/-- Whether the parameter takes the block of a call. -/
def isBlock : Parameter → Bool
  | ⟨_, _, _, b⟩ => b

/-- A parameter with a declared type and nothing else. -/
def typed (name typeName : String) : Parameter := ⟨name, some typeName, none, false⟩

end Parameter

namespace Argument

/-- The name of an argument. -/
def name : Argument → String
  | .required n | .optional n _ | .block n _ => n

/-- Whether the argument takes the block of a call. -/
def isBlock : Argument → Bool
  | .block _ _ => true
  | _ => false

end Argument

namespace Node

/-! ### Parts of a node -/

/-- The direct parts of a node, in source order.  A macro definition counts as
    closed: its defaults and body are no parts of the tree around it. -/
def children : Node → List Node
  | ⟨_, .assign _ v⟩ | ⟨_, .fieldAssign _ v⟩ => [v]
  | ⟨_, .call t _ args b⟩ => t :: (args ++ b.toList)
  | ⟨_, .invoke _ args b⟩ => args ++ b.toList
  | ⟨_, .cond t y n⟩ => t :: y :: n.toList
  | ⟨_, .body items⟩ => items
  | ⟨_, .block _ b _⟩ | ⟨_, .classDef _ _ b⟩ => [b]
  | ⟨_, .methodDef _ ps _ b⟩ => ps.filterMap Parameter.default ++ [b]
  | ⟨_, .quote b⟩ | ⟨_, .unquote b⟩ => [b]
  | _ => []

/-- The statements of a body; any other node is its own single statement. -/
def statements : Node → List Node
  | ⟨_, .body items⟩ => items
  | n => [n]

/-- A body of one statement stands for that statement. -/
def collapse : Node → Node
  | ⟨_, .body [item]⟩ => item
  | n => n

@[simp] theorem statements_body (s : Span) (items : List Node) :
    (Node.mk s (.body items)).statements = items := rfl

@[simp] theorem collapse_body_singleton (s : Span) (n : Node) :
    (Node.mk s (.body [n])).collapse = n := rfl

/-! ### Calls -/

/-- The name of a call. -/
def callName : Node → Option String
  | ⟨_, .call _ name _ _⟩ | ⟨_, .invoke name _ _⟩ => some name
  | _ => none

/-- The positional arguments of a call. -/
def callArgs : Node → List Node
  | ⟨_, .call _ _ args _⟩ | ⟨_, .invoke _ args _⟩ => args
  | _ => []

/-- The block of a call. -/
def callBlock : Node → Option Node
  | ⟨_, .call _ _ _ block⟩ | ⟨_, .invoke _ _ block⟩ => block
  | _ => none

/-! ### Names of the kinds of nodes -/

/-- What a diagnostic calls a node. -/
def describe (n : Node) : String :=
  match n.form with
  | .int _ => "integer literal"
  | .float _ => "float literal"
  | .str _ => "string literal"
  | .bool _ => "boolean literal"
  | .nil => "nil"
  | .self => "self"
  | .ident _ => "identifier"
  | .assign _ _ => "local assignment"
  | .field _ => "field"
  | .fieldAssign _ _ => "field assignment"
  | .constant _ => "constant"
  | .call _ _ _ _ => "method call"
  | .invoke _ _ _ => "call"
  | .cond _ _ _ => "conditional"
  | .body _ => "body"
  | .block _ _ _ => "block"
  | .blockArgument _ _ => "block argument"
  | .classDef _ _ _ => "class definition"
  | .methodDef _ _ _ _ => "method definition"
  | .macroDef _ _ _ _ => "macro definition"
  | .quote _ => "quote"
  | .unquote _ => "unquote"
  | .noop => "no-op"
  | .error _ => "error marker"

/-- Whether the node is the trace of a definition. -/
def isNoop : Node → Bool
  | ⟨_, .noop⟩ => true
  | _ => false

/-! ### Weight -/

mutual

/-- The number of forms in a tree. -/
def weight : Node → Nat
  | ⟨_, .assign _ v⟩ => weight v + 1
  | ⟨_, .fieldAssign _ v⟩ => weight v + 1
  | ⟨_, .call t _ args b⟩ => weight t + weightAll args + weightOpt b + 1
  | ⟨_, .invoke _ args b⟩ => weightAll args + weightOpt b + 1
  | ⟨_, .cond t y n⟩ => weight t + weight y + weightOpt n + 1
  | ⟨_, .body items⟩ => weightAll items + 1
  | ⟨_, .block _ b _⟩ => weight b + 1
  | ⟨_, .classDef _ _ b⟩ => weight b + 1
  | ⟨_, .methodDef _ ps _ b⟩ => weightParams ps + weight b + 1
  | ⟨_, .macroDef _ args b _⟩ => weightArgs args + weight b + 1
  | ⟨_, .quote b⟩ => weight b + 1
  | ⟨_, .unquote b⟩ => weight b + 1
  | ⟨_, _⟩ => 1

/-- The forms in all trees of a list. -/
def weightAll : List Node → Nat
  | [] => 0
  | n :: ns => weight n + weightAll ns

/-- The forms in a tree that may be absent. -/
def weightOpt : Option Node → Nat
  | none => 0
  | some n => weight n

/-- The forms in the defaults of parameters. -/
def weightParams : List Parameter → Nat
  | [] => 0
  | ⟨_, _, d, _⟩ :: ps => weightOpt d + weightParams ps

/-- The forms in the defaults of macro arguments. -/
def weightArgs : List Argument → Nat
  | [] => 0
  | .required _ :: args => weightArgs args
  | .optional _ d :: args => weight d + weightArgs args
  | .block _ _ :: args => weightArgs args

end

/-- No tree is empty. -/
theorem weight_pos (n : Node) : 0 < n.weight := by
  obtain ⟨s, f⟩ := n
  cases f <;> simp [weight]

end Node

end Quasiquote
