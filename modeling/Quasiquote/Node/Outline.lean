import Quasiquote.Decimal.Layout
import Quasiquote.Node.Basic
import Quasiquote.Text.Hidden

namespace Quasiquote

/-!
# Outlines — trees in full

An outline shows every part of a tree by name, positions included, one part to a
line.

* `Outline` — named parts inside each other;
* `Outline.render` — the text of an outline;
* `Node.outline` — the outline of a tree.
-/

/-- Named parts inside each other. -/
inductive Outline where
  | atom (text : String)
  | list (items : List Outline)
  | tuple (name : String) (items : List Outline)
  | record (name : String) (fields : List (String × Outline))

namespace Outline

/-- A hexadecimal digit. -/
def hexDigit (n : Nat) : Char :=
  if n < 10 then Char.ofNat ('0'.toNat + n) else Char.ofNat ('a'.toNat + (n - 10))

/-- A character inside a quoted text.  Hidden characters are written by their code
    points. -/
def escapeChar (c : Char) : List Char :=
  match c with
  | '\x00' => ['\\', '0']
  | '\t' => ['\\', 't']
  | '\r' => ['\\', 'r']
  | '\n' => ['\\', 'n']
  | '"' => ['\\', '"']
  | '\\' => ['\\', '\\']
  | c =>
    if Hidden.isHidden c then
      '\\' :: 'u' :: '\x7b' :: (Nat.toDigits 16 c.toNat ++ ['\x7d'])
    else [c]

/-- A quoted text. -/
def quote (s : String) : Outline :=
  .atom (String.ofList ('"' :: (s.toList.flatMap escapeChar ++ ['"'])))

/-- A truth value. -/
def ofBool (b : Bool) : Outline := .atom (if b then "true" else "false")

/-- A number. -/
def ofNat (n : Nat) : Outline := .atom (toString n)

/-- A part that may be absent. -/
def ofOption : Option Outline → Outline
  | none => .atom "None"
  | some x => .tuple "Some" [x]

/-- A line break and the indentation of the next line. -/
def lineBreak (depth : Nat) : String :=
  String.ofList ('\n' :: List.replicate (4 * depth) ' ')

mutual

/-- The text of an outline at a depth of indentation. -/
def renderAt (depth : Nat) : Outline → String
  | .atom text => text
  | .list [] => "[]"
  | .list items => "[" ++ renderAll (depth + 1) items ++ lineBreak depth ++ "]"
  | .tuple name items => name ++ "(" ++ renderAll (depth + 1) items ++ lineBreak depth ++ ")"
  | .record name fields =>
    name ++ " \x7b" ++ renderFields (depth + 1) fields ++ lineBreak depth ++ "\x7d"

/-- The texts of several outlines, each on lines of its own. -/
def renderAll (depth : Nat) : List Outline → String
  | [] => ""
  | x :: xs => lineBreak depth ++ renderAt depth x ++ "," ++ renderAll depth xs

/-- The texts of several named parts, each on lines of its own. -/
def renderFields (depth : Nat) : List (String × Outline) → String
  | [] => ""
  | (name, x) :: xs =>
    lineBreak depth ++ name ++ ": " ++ renderAt depth x ++ "," ++ renderFields depth xs

end

/-- The text of an outline. -/
def render (x : Outline) : String := renderAt 0 x

end Outline

/-- The outline of a span. -/
def Span.outline (s : Span) : Outline :=
  .record "Span" [("start", .ofNat s.start), ("end", .ofNat s.stop)]

namespace Node

open Outline

mutual

/-- The outline of a tree. -/
def outline : Node → Outline
  | ⟨s, f⟩ => .record "Node" [("kind", outlineForm f), ("span", s.outline)]

/-- The outline of a form. -/
def outlineForm : Form → Outline
  | .int i => .tuple "Fixnum" [.atom (toString i)]
  | .float x => .tuple "Float" [.atom (Layout.inspect.render x)]
  | .str t => .tuple "Str" [quote t]
  | .bool b => .tuple "Bool" [ofBool b]
  | .nil => .atom "Nil"
  | .self => .atom "SelfRef"
  | .ident name => .tuple "Local" [quote name]
  | .assign name v => .record "LocalAssign" [("name", quote name), ("value", outline v)]
  | .field name => .tuple "Field" [quote name]
  | .fieldAssign name v => .record "FieldAssign" [("name", quote name), ("value", outline v)]
  | .constant name => .tuple "Constant" [quote name]
  | .call t name args b => .record "Call" [("target", outline t), ("name", quote name),
    ("args", .list (outlineAll args)), ("block", ofOption (outlineOpt b))]
  | .invoke name args b => .record "FunctionalCall" [("name", quote name),
    ("args", .list (outlineAll args)), ("block", ofOption (outlineOpt b))]
  | .cond t y n => .record "If" [("condition", outline t), ("then_branch", outline y),
    ("else_branch", ofOption (outlineOpt n))]
  | .body items => .tuple "Body" [.list (outlineAll items)]
  | .block params b brace => .record "Block" [("params", .list (params.map quote)),
    ("body", outline b), ("brace", ofBool brace)]
  | .blockArgument name optional => .record "BlockArgument"
    [("name", quote name), ("optional", ofBool optional)]
  | .classDef name superclass b => .record "ClassDefinition" [("name", quote name),
    ("superclass", ofOption (superclass.map quote)), ("body", outline b)]
  | .methodDef name params returns b => .tuple "MethodDefinition"
    [.record "MethodDef" [("name", quote name), ("params", .list (outlineParams params)),
      ("returns", ofOption (returns.map quote)), ("body", outline b)]]
  | .macroDef name args b id => .record "MacroDefinition"
    [("spec", .record "MacroSpec" [("name", quote name),
        ("arguments", .list (outlineArgs args)), ("body", outline b)]),
      ("id", ofOption (id.map fun i => .tuple "MacroDefId" [.ofNat i]))]
  | .quote b => .tuple "Quote" [outline b]
  | .unquote v => .tuple "Unquote" [outline v]
  | .noop => .atom "Noop"
  | .error message => .tuple "Error" [quote message]

/-- The outlines of several trees. -/
def outlineAll : List Node → List Outline
  | [] => []
  | n :: ns => outline n :: outlineAll ns

/-- The outline of a tree that may be absent. -/
def outlineOpt : Option Node → Option Outline
  | none => none
  | some n => some (outline n)

/-- The outlines of parameters. -/
def outlineParams : List Parameter → List Outline
  | [] => []
  | ⟨name, type, default, block⟩ :: ps =>
    .record "Param" [("name", quote name), ("type_name", ofOption (type.map quote)),
      ("default", ofOption (outlineOpt default)), ("block", ofBool block)] :: outlineParams ps

/-- The outlines of macro arguments. -/
def outlineArgs : List Argument → List Outline
  | [] => []
  | .required name :: args => .tuple "Required" [quote name] :: outlineArgs args
  | .optional name default :: args =>
    .tuple "Optional" [quote name, outline default] :: outlineArgs args
  | .block name optional :: args =>
    .tuple "Block" [quote name, ofBool optional] :: outlineArgs args

end

end Node

end Quasiquote
