namespace Quasiquote

/-!
# Type references — the static types of values

* `TypeRef` — the types, among them instances of named types and named types
  themselves as values;
* `TypeRef.ofName` — the type that a name in a program means;
* `TypeRef.owner` — the name of the type whose methods and macros apply.
-/

/-- A static type. -/
inductive TypeRef where
  /-- An unknown value, which accepts any method. -/
  | any
  | void
  | int
  | float
  | str
  | bool
  | nil
  /-- A syntax tree. -/
  | node
  | block
  /-- An instance of a named type. -/
  | named (name : String)
  /-- A named type itself. -/
  | classOf (name : String)
deriving DecidableEq, Repr

namespace TypeRef

/-- The name under which a type is written. -/
def name : TypeRef → String
  | .any => "Any"
  | .void => "Void"
  | .int => "Int"
  | .float => "Float"
  | .str => "String"
  | .bool => "Bool"
  | .nil => "Nil"
  | .node => "Node"
  | .block => "Block"
  | .named n | .classOf n => n

/-- The type that a name in a program means. -/
def ofName (name : String) : TypeRef :=
  match name with
  | "Any" => .any
  | "Void" => .void
  | "Int" => .int
  | "Float" => .float
  | "String" => .str
  | "Bool" => .bool
  | "Nil" => .nil
  | "Node" => .node
  | "Block" => .block
  | other => .named other

/-- The name of the type whose methods and macros apply to values of a type. -/
def owner : TypeRef → Option String
  | .any | .void => none
  | t => some t.name

/-- A type as diagnostics and tables show it. -/
def display : TypeRef → String
  | .classOf n => n ++ ".class"
  | t => t.name

/-- Writing a name as a type and reading the type's name gives the name back. -/
theorem name_ofName (n : String) : (ofName n).name = n := by
  unfold ofName
  split <;> rfl

end TypeRef

end Quasiquote
