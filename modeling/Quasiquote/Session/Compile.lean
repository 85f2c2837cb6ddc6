import Quasiquote.Typing.Build

namespace Quasiquote

/-!
# Compiling sources

* `Compilation` — a compiled source: the program with all macros expanded, and
  what there is to say about it;
* `Work.compileWithin`, `Work.compile` — compiles a source in a session;
* `Work.infer` — types a program without compiling it;
* `Work.build` — builds the macro of one definition.

Builds of macros nest.  A computation in which they nest deeper than a given
number is cut off; it has no result, but it leaves a session behind.
-/

/-- A compiled source. -/
structure Compilation where
  program : Node
  errors : List Diagnostic
  warnings : List Diagnostic
  expansions : List ExpansionStep

namespace Work

/-- How deep builds of macros nest unless said otherwise. -/
def nesting : Nat := 1000

/-- Types a tree in a scope with local variables. -/
def infer (k : Work) (scope : Scope) (locals : NameMap TypeRef) (n : Node)
    (nesting : Nat := Work.nesting) : Option ((Node × TypeRef) × Typing) :=
  ((Typer.inferWithin nesting scope n).run { work := k, locals }).toOption

/-- Builds the macro of a definition, given by its number. -/
def build (k : Work) (id : Nat) (nesting : Nat := Work.nesting) :
    Option (Except Diagnostic Unit × Work) := do
  let (result, t) ← ((Typer.require nesting id).run { work := k }).toOption
  return (result, t.work)

/-- Notes the name of the source that is compiled. -/
def enter (k : Work) (source : String) : Work :=
  { k with session := { k.session with source } }

/-- Writes the descriptors, if the session writes any, and answers the result of a
    compilation. -/
def finish (k : Work) (c : Compilation) : Except Diagnostic Compilation × Work :=
  (SessionM.writeDescriptors.map fun _ => c).run k

/-- Compiles a source, where builds nest `nesting` deep at most, or answers the
    session in which that is cut off.  A text that is no program is a failure; every
    other one is collected, and leaves a marker in the program. -/
def compileWithin (k : Work) (nesting : Nat) (source text : String) :
    Except Work (Except Diagnostic Compilation × Work) :=
  let k := k.enter source
  match Program.parse source text with
  | .error d => .ok (.error d, k)
  | .ok n =>
    let (n, markers) := n.expandInlineAll k.session.inlineEnv
    let scope := Scope.script k.session.settings.scriptType
    match (Typer.inferWithin nesting scope n).run { work := k } with
    | .error t => .error t.work
    | .ok ((program, _), t) =>
      let s := t.work.session
      .ok (t.work.finish {
        program
        errors := markers ++ t.errors
        warnings := s.warnings.drop k.session.warnings.length
        expansions := s.expansions.drop k.session.expansions.length })

/-- Compiles a source, if that is not cut off. -/
def compile (k : Work) (source text : String) (nesting : Nat := Work.nesting) :
    Option (Except Diagnostic Compilation × Work) :=
  (k.compileWithin nesting source text).toOption

end Work

end Quasiquote
