import Quasiquote.Diagnostic
import Quasiquote.Macro.Signature

namespace Quasiquote

/-!
# Macro definitions — how macros are written

A macro is defined by a call that is handed its signature.  The signature is
either a call whose arguments are the parameters, with the body in a block behind
it, or a method definition, which may also be named by an operator.

    macro name(a, b = default, &blk = nil) do … end
    macro def name(a, b = default, &blk) … end

* `MacroSpec.ofCall` — the macro that a call defines, or why it defines none;
* `MacroSpec.flaw?` — what keeps arguments and a body from being a macro.
-/

namespace MacroSpec

/-- A definition that cannot be accepted. -/
def rejected {α : Type} (source name reason : String) (at' : Node) : Except Diagnostic α :=
  .error (.report "transform" source (.invalidDefinition name reason) at'.span)

/-- A parameter of a signature in the form of a call. -/
def argumentOfNode (source name : String) (n : Node) : Except Diagnostic Argument :=
  match n.form with
  | .ident arg => .ok (.required arg)
  | .assign arg default => .ok (.optional arg default)
  | .blockArgument arg optional => .ok (.block arg optional)
  | _ => rejected source name ("unsupported argument " ++ n.describe) n

/-- A parameter of a signature in the form of a method.  Declared types are not
    enforced; a block cannot be optional. -/
def argumentOfParameter (source name : String) (call : Node) (p : Parameter) :
    Except Diagnostic Argument :=
  match p.default, p.isBlock with
  | some _, true =>
    rejected source name "optional block arguments are not supported in def syntax" call
  | none, true => .ok (.block p.name false)
  | some default, false => .ok (.optional p.name default)
  | none, false => .ok (.required p.name)

/-- What is wrong with the arguments behind those in `earlier`, if anything.
    `optional` tells whether an optional argument came before. -/
def argumentFlaw? (earlier : List String) (optional : Bool) : List Argument → Option String
  | [] => none
  | a :: rest =>
    if earlier.contains a.name then some ("duplicate argument '" ++ a.name ++ "'")
    else match a with
      | .block name _ =>
        if rest.isEmpty then none
        else some ("block argument '&" ++ name ++ "' must come last")
      | .required name =>
        if optional then
          some ("required argument '" ++ name ++ "' follows an optional argument")
        else argumentFlaw? (name :: earlier) optional rest
      | .optional name _ => argumentFlaw? (name :: earlier) true rest

/-- What keeps arguments and a body from being a macro, if anything. -/
def flaw? (m : MacroSpec) : Option String :=
  if m.body.statements.isEmpty then some "missing macro body"
  else argumentFlaw? [] false m.args

/-- The macro of a signature in the form of a call. -/
def ofCallForm (source name : String) (args : List Node) (call : Node) :
    Except Diagnostic MacroSpec := do
  let args ← args.mapM (argumentOfNode source name)
  match call.callBlock with
  | some ⟨_, .block params body _⟩ =>
    if params.isEmpty then return ⟨name, args, body⟩
    else rejected source name "macro bodies take no block parameters" call
  | _ => rejected source name "missing macro body" call

/-- The macro of a signature in the form of a method. -/
def ofMethodForm (source name : String) (params : List Parameter) (body call : Node) :
    Except Diagnostic MacroSpec := do
  let args ← params.mapM (argumentOfParameter source name call)
  return ⟨name, args, body⟩

/-- The macro of a signature, its flaws aside. -/
def ofSignature (source keyword : String) (signature call : Node) : Except Diagnostic MacroSpec :=
  match signature.form with
  | .methodDef name params _ body =>
    if call.callBlock.isSome then
      rejected source name "def syntax takes its body between def and end" call
    else ofMethodForm source name params body call
  | .invoke name args block =>
    if block.isSome then rejected source name "unexpected block on the macro signature" call
    else ofCallForm source name args call
  | .ident name => ofCallForm source name [] call
  | _ =>
    rejected source keyword ("expected a macro signature, found " ++ signature.describe) signature

/-- The macro that a call defines. -/
def ofCall (source keyword : String) (call : Node) : Except Diagnostic MacroSpec :=
  match call.callArgs with
  | [] => rejected source keyword "missing macro name" call
  | [signature] => do
    let m ← ofSignature source keyword signature call
    match m.flaw? with
    | some reason => rejected source m.name reason call
    | none => return m
  | _ => rejected source keyword "expected a single macro signature" call

end MacroSpec

end Quasiquote
