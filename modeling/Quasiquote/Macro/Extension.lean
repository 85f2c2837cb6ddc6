import Quasiquote.Macro.Signature
import Quasiquote.Types.Registry

namespace Quasiquote

/-!
# Extensions — the class that a macro is compiled as

A macro is compiled as a class of its own.  Its constructor keeps the compiler
and the call; the entry method takes the call apart and hands the parts to the
method that holds the authored body.

* `Extension.bodyMethod`, `Extension.entryMethod` — the names of the methods;
* `Extension.forwarded` — what the entry method hands on for the arguments;
* `Extension.ofSpec` — the class of a macro.
-/

namespace Extension

/-- The method that holds the authored body. -/
def bodyMethod : String := "_expand"

/-- The method that expands a call. -/
def entryMethod : String := "expand"

/-- The field that holds the call. -/
def callField (s : Span) : Node := ⟨s, .field "call"⟩

/-- A statement that keeps a parameter in the field of the same name. -/
def keep (s : Span) (name : String) : Node := ⟨s, .fieldAssign name ⟨s, .ident name⟩⟩

/-- The constructor. -/
def constructor (s : Span) : Node :=
  ⟨s, .methodDef "initialize" [.typed "mirah" "Compiler", .typed "call" "Node"] none
    ⟨s, .body [keep s "mirah", keep s "call"]⟩⟩

/-- A call of a method of the call to be expanded. -/
def askCall (s : Span) (name : String) (args : List Node) : Node :=
  ⟨s, .call (callField s) name args none⟩

/-- What the entry method hands on for the arguments from a position on. -/
def forwarded (s : Span) (position : Int) : List Argument → List Node
  | [] => []
  | .required _ :: args =>
    askCall s "argument" [⟨s, .int position⟩] :: forwarded s (position + 1) args
  | .optional _ default :: args =>
    askCall s "argument_or" [⟨s, .int position⟩, ⟨s, .quote default⟩] ::
      forwarded s (position + 1) args
  | .block _ _ :: args => askCall s "block" [] :: forwarded s position args

/-- The method that takes the call apart. -/
def entry (m : MacroSpec) (s : Span) : Node :=
  ⟨s, .methodDef entryMethod [] (some "Node")
    ⟨s, .body [⟨s, .invoke bodyMethod (forwarded s 0 m.args) none⟩]⟩⟩

/-- The type of a parameter of the authored body. -/
def parameterType (a : Argument) : String := if a.isBlock then "Block" else "Node"

/-- The method that holds the authored body. -/
def authored (m : MacroSpec) : Node :=
  ⟨m.body.span, .methodDef bodyMethod (m.args.map fun a => .typed a.name (parameterType a))
    (some "Node") m.body⟩

/-- The class of a macro.  All that is added takes the span of the definition,
    while the authored body keeps its own. -/
def ofSpec (unit : String) (m : MacroSpec) (s : Span) : Node :=
  ⟨s, .classDef unit (some extensionType)
    ⟨s, .body [constructor s, entry m s, authored m]⟩⟩

/-- The entry method hands on one value for each argument. -/
theorem length_forwarded (s : Span) (i : Int) (args : List Argument) :
    (forwarded s i args).length = args.length := by
  induction args generalizing i with
  | nil => rfl
  | cons a args ih => cases a <;> simp [forwarded, ih]

end Extension

end Quasiquote
