import Quasiquote.Node.Basic

namespace Quasiquote

/-!
# Operators — from a line of operands to a tree

Operators are calls.  Signs before an operand apply to that operand alone; the
operators between operands bind by level, and equal levels group to the left.

* `Operator.level` — how tightly an operator binds, `Operator.all` — which names
  are operators;
* `Operand` — the parts of a line, in the order in which they are written;
* `Operand.tree` — the tree of a line.
-/

namespace Operator

/-- The names that are written between their operands. -/
def all : List String :=
  ["||", "&&", "==", "!=", "<", "<=", ">", ">=", "<<", "+", "-", "*", "/", "%"]

/-- How tightly an operator binds; a greater level binds tighter. -/
def level : String → Nat
  | "||" => 1
  | "&&" => 2
  | "==" | "!=" => 3
  | "<" | "<=" | ">" | ">=" => 4
  | "<<" => 5
  | "+" | "-" => 6
  | "*" | "/" | "%" => 7
  | _ => 0

end Operator

/-- One part of a line of operands. -/
inductive Operand where
  /-- A sign, which applies to the next value. -/
  | sign (name : String) (span : Span)
  | value (node : Node)
  /-- An operator between two values. -/
  | operator (name : String)

namespace Operand

/-- Applies each sign to the value behind it, the last sign first.  `place` gives
    the span of a call on two places. -/
def applySigns (place : Span → Span → Span) : List Operand → List Operand
  | [] => []
  | .sign name span :: rest =>
    match applySigns place rest with
    | .value v :: more => .value ⟨place span v.span, .call v name [] none⟩ :: more
    | more => more
  | o :: rest => o :: applySigns place rest

/-- The operators of a line, each with the value behind it. -/
def pairs : List Operand → List (String × Node)
  | .operator name :: .value v :: rest => (name, v) :: pairs rest
  | _ => []

/-- The call of an operator on two values. -/
def apply (place : Span → Span → Span) (lhs : Node) (name : String) (rhs : Node) : Node :=
  ⟨place lhs.span rhs.span, .call lhs name [rhs] none⟩

/-- Closes the open operators that bind at least as tightly as `level`. -/
def reduce (place : Span → Span → Span) (level : Nat) :
    List (Node × String) → Node → List (Node × String) × Node
  | [], rhs => ([], rhs)
  | (lhs, name) :: pending, rhs =>
    if level ≤ Operator.level name then reduce place level pending (apply place lhs name rhs)
    else ((lhs, name) :: pending, rhs)

/-- Groups a line of operators by level, given the operators that are still open
    and the value before the line. -/
def group (place : Span → Span → Span) :
    List (Node × String) → Node → List (String × Node) → Node
  | pending, last, [] => (reduce place 0 pending last).2
  | pending, last, (name, rhs) :: rest =>
    let (pending, lhs) := reduce place (Operator.level name) pending last
    group place ((lhs, name) :: pending) rhs rest

/-- The tree of a line of operands, if the line starts with a value. -/
def tree (place : Span → Span → Span) (line : List Operand) : Option Node :=
  match applySigns place line with
  | .value v :: rest => some (group place [] v (pairs rest))
  | _ => none

end Operand

end Quasiquote
