import Quasiquote.Decimal.Layout
import Quasiquote.Node.Operator
import Quasiquote.Template.Scopes
import Quasiquote.Text.Literal

namespace Quasiquote

/-!
# Printing — program text for trees

A tree is printed so that reading the text gives the tree back.  A quoted body
can also be printed as a template: each of its holes is handed to the innermost
template scope and leaves a numbered placeholder, while holes of quotes inside
it stay as they are.

* `Node.print` — the text of a program;
* `Node.printTemplate` — the text of a template.

Both are `Node.textM` with another treatment of the outer holes.
-/

namespace Node

/-- A line break and the indentation of the next line. -/
def lineBreak (indent : Nat) : String :=
  String.ofList ('\n' :: List.replicate (2 * indent) ' ')

/-- Whether an operand of an operator needs parentheses of its own. -/
def isLoose : Node → Bool
  | ⟨_, .cond _ _ _⟩ | ⟨_, .body _⟩ | ⟨_, .assign _ _⟩ => true
  | _ => false

/-- Whether a node is a block. -/
def isBlock : Node → Bool
  | ⟨_, .block _ _ _⟩ => true
  | _ => false

/-- Parentheses around a text that needs them. -/
def wrapIf (loose : Bool) (text : String) : String :=
  if loose then "(" ++ text ++ ")" else text

/-- The text of a boolean. -/
def boolText (b : Bool) : String := if b then "true" else "false"

/-- How a call is written. -/
inductive CallStyle where
  /-- Between two operands. -/
  | between
  /-- In front of its operand. -/
  | before (sign : String)
  /-- After a point. -/
  | dotted

/-- How the call of a name on some arguments, with or without a block, is
    written. -/
def callStyle (name : String) (argc : Nat) (hasBlock : Bool) : CallStyle :=
  if hasBlock then .dotted
  else if argc = 1 && Operator.all.contains name then .between
  else if argc = 0 && name == "!" then .before "!"
  else if argc = 0 && name == "-@" then .before "-"
  else .dotted

variable {m : Type → Type} [Monad m]

mutual

/-- The text of a form, starting at a depth of indentation.  `outer` says what an
    outer hole leaves; without it holes are printed like everything else. -/
def formM (outer : Option (Node → m String)) (indent : Nat) : Form → m String
  | .int i => pure (toString i)
  | .float x => pure (Decimal.exact x)
  | .str s => pure (Literal.quote s)
  | .bool b => pure (boolText b)
  | .nil => pure "nil"
  | .self => pure "self"
  | .ident name => pure name
  | .assign name v => do return name ++ " = " ++ (← textM outer indent v)
  | .field name => pure ("@" ++ name)
  | .fieldAssign name v => do return "@" ++ name ++ " = " ++ (← textM outer indent v)
  | .constant name => pure name
  | .call target name args block => do
    let receiver ← textM outer indent target
    let args' ← textsM outer indent args
    let block' ← blockM outer indent block
    let operand := wrapIf target.isLoose receiver
    return match callStyle name args.length block.isSome, args, args' with
      | .between, [arg], [text] =>
        "(" ++ operand ++ " " ++ name ++ " " ++ wrapIf arg.isLoose text ++ ")"
      | .before sign, _, _ => sign ++ "(" ++ receiver ++ ")"
      | _, _, texts =>
        operand ++ "." ++ name ++
          (if texts.isEmpty then "" else "(" ++ ", ".intercalate texts ++ ")") ++ block'
  | .invoke name args block => do
    let args' ← textsM outer indent args
    let block' ← blockM outer indent block
    return name ++ "(" ++ ", ".intercalate args' ++ ")" ++ block'
  | .cond test yes none => do
    let test' ← textM outer indent test
    let yes' ← linesOfM outer (indent + 1) yes
    return "if " ++ test' ++ yes' ++ lineBreak indent ++ "end"
  | .cond test yes (some no) => do
    let test' ← textM outer indent test
    let yes' ← linesOfM outer (indent + 1) yes
    let no' ← linesOfM outer (indent + 1) no
    return "if " ++ test' ++ yes' ++ lineBreak indent ++ "else" ++ no' ++
      lineBreak indent ++ "end"
  | .body items => do return "(" ++ "; ".intercalate (← textsM outer indent items) ++ ")"
  | .block params body brace => do
    let params' := if params.isEmpty then "" else " |" ++ ", ".intercalate params ++ "|"
    let body' ← linesOfM outer (indent + 1) body
    return (if brace then " \x7b" else " do") ++ params' ++ body' ++ lineBreak indent ++
      (if brace then "\x7d" else "end")
  | .blockArgument name optional =>
    pure ("&" ++ name ++ (if optional then " = nil" else ""))
  | .classDef name superclass body => do
    let body' ← linesOfM outer (indent + 1) body
    return "class " ++ name ++ (superclass.map (" < " ++ ·)).getD "" ++ body' ++
      lineBreak indent ++ "end"
  | .methodDef name params returns body => do
    let params' ← paramsM outer indent params
    let body' ← linesOfM outer (indent + 1) body
    return "def " ++ name ++
      (if params'.isEmpty then "" else "(" ++ ", ".intercalate params' ++ ")") ++
      (returns.map (":" ++ ·)).getD "" ++ body' ++ lineBreak indent ++ "end"
  | .macroDef name args body _ => do
    let args' ← argsM outer indent args
    let body' ← linesOfM outer (indent + 1) body
    return "macro " ++ name ++ "(" ++ ", ".intercalate args' ++ ") do" ++ body' ++
      lineBreak indent ++ "end"
  | .quote body => do
    return "quote \x7b" ++ (← linesOfM none (indent + 1) body) ++ lineBreak indent ++ "\x7d"
  | .unquote v => match outer with
    | some leave => leave v
    | none => do return "`" ++ (← textM none indent v) ++ "`"
  | .noop => pure ""
  | .error message => pure ("# error: " ++ message)

/-- The text of a node. -/
def textM (outer : Option (Node → m String)) (indent : Nat) : Node → m String
  | ⟨_, f⟩ => formM outer indent f

/-- The statements of a node, each on a line of its own.  What is left of
    definitions is not printed. -/
def linesOfM (outer : Option (Node → m String)) (indent : Nat) : Node → m String
  | ⟨_, f⟩ => match f with
    | .body items => linesM outer indent items
    | .noop => pure ""
    | f => do return lineBreak indent ++ (← formM outer indent f)

/-- Statements, each on a line of its own. -/
def linesM (outer : Option (Node → m String)) (indent : Nat) : List Node → m String
  | [] => pure ""
  | n :: ns => do
    let line ← textM outer indent n
    let below ← linesM outer indent ns
    return if n.isNoop then below else lineBreak indent ++ line ++ below

/-- The texts of several nodes. -/
def textsM (outer : Option (Node → m String)) (indent : Nat) : List Node → m (List String)
  | [] => pure []
  | n :: ns => do
    let text ← textM outer indent n
    return text :: (← textsM outer indent ns)

/-- The block behind a call, if there is one. -/
def blockM (outer : Option (Node → m String)) (indent : Nat) : Option Node → m String
  | none => pure ""
  | some n =>
    if n.isBlock then textM outer indent n
    else do
      let body ← linesOfM outer (indent + 1) n
      return " \x7b" ++ body ++ lineBreak indent ++ "\x7d"

/-- The parameters of a method. -/
def paramsM (outer : Option (Node → m String)) (indent : Nat) :
    List Parameter → m (List String)
  | [] => pure []
  | ⟨name, type, default, block⟩ :: ps => do
    let head := (if block then "&" else "") ++ name ++ (type.map (":" ++ ·)).getD ""
    let text ← match default with
      | some d => do pure (head ++ " = " ++ (← textM outer indent d))
      | none => pure head
    return text :: (← paramsM outer indent ps)

/-- The declared arguments of a macro. -/
def argsM (outer : Option (Node → m String)) (indent : Nat) : List Argument → m (List String)
  | [] => pure []
  | .required name :: args => do return name :: (← argsM outer indent args)
  | .optional name default :: args => do
    let text ← textM outer indent default
    return (name ++ " = " ++ text) :: (← argsM outer indent args)
  | .block name optional :: args => do
    return ("&" ++ name ++ (if optional then " = nil" else "")) :: (← argsM outer indent args)

end

/-- The statements of a node, one below the other. -/
def programM (outer : Option (Node → m String)) (n : Node) : m String := do
  let texts ← textsM outer 0 (n.statements.filter fun s => !s.isNoop)
  return "\n".intercalate texts

/-- The text of a program. -/
def print (n : Node) : String := (programM (m := Id) none n).run

/-- The text of a template: every outer hole is captured by the innermost scope
    and leaves its placeholder. -/
def printTemplate (n : Node) : ExceptT TemplateError (StateM (Scopes Node)) String :=
  programM (some fun v => do return placeholder (← Scopes.capture v)) n

end Node

end Quasiquote
