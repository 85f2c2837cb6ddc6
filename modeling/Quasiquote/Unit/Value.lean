import Quasiquote.Node.Equality
import Quasiquote.Node.Printer

namespace Quasiquote

/-!
# Values — what running units compute with

There are few kinds of values: the literals of the language, syntax trees, the
compiler, and the way to standard output.

* `Value` — the values;
* `Value.same` — equality, which ignores the positions of trees;
* `Value.text` — a value as text;
* `Value.toNode` — the tree that stands for a value in a program.
-/

/-- A value of a running unit. -/
inductive Value where
  | nil
  | bool (b : Bool)
  | int (i : Int)
  | float (x : Float)
  | str (s : String)
  | node (n : Node)
  /-- The compiler that runs the unit. -/
  | compiler
  | system
  | stdout
deriving Inhabited

namespace Value

/-- Everything but `nil` and `false` counts as true. -/
def truthy : Value → Bool
  | .nil | .bool false => false
  | _ => true

/-- The name of the type of a value. -/
def typeName : Value → String
  | .nil => "Nil"
  | .bool _ => "Bool"
  | .int _ => "Int"
  | .float _ => "Float"
  | .str _ => "String"
  | .node _ => "Node"
  | .compiler => "Compiler"
  | .system => "System"
  | .stdout => "PrintStream"

/-- Whether two values are equal. -/
def same : Value → Value → Bool
  | .nil, .nil | .compiler, .compiler | .system, .system | .stdout, .stdout => true
  | .bool a, .bool b => a == b
  | .int a, .int b => a == b
  | .float a, .float b => a == b
  | .str a, .str b => a == b
  | .node a, .node b => a.alike b
  | _, _ => false

/-- Whether a value is `nil`. -/
def isNil : Value → Bool
  | .nil => true
  | _ => false

/-- A value as text. -/
def text : Value → String
  | .nil => ""
  | .bool b => if b then "true" else "false"
  | .int i => toString i
  | .float x => Layout.plain.render x
  | .str s => s
  | .node n => n.print
  | v => v.typeName

/-- The tree that stands for a value, at a place.  A tree stands for itself. -/
def toNode (s : Span) : Value → Except String Node
  | .node n => .ok n
  | .nil => .ok ⟨s, .nil⟩
  | .bool b => .ok ⟨s, .bool b⟩
  | .int i => .ok ⟨s, .int i⟩
  | .float x => .ok ⟨s, .float x⟩
  | .str t => .ok ⟨s, .str t⟩
  | v => .error ("a " ++ v.typeName ++ " cannot be used as a node")

end Value

end Quasiquote
