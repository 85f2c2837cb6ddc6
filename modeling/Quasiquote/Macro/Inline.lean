import Quasiquote.Macro.Definition
import Quasiquote.NameMap

namespace Quasiquote

/-!
# Inline macros — calls that are replaced on sight

Inline macros need no unit: they are the definition syntax itself and the
shorthands for output.  They are expanded everywhere except in quoted text;
the holes of quoted text are code again.

* `InlineMacro`, `InlineMacros` — the built-in replacements, and their names;
* `Node.expandInlineM` — a tree with its inline macros expanded, where a failure
  is handled by the caller;
* `Node.expandInline` — the same, ending at the first failure;
* `Node.expandInlineAll` — the same, leaving a marker and going on.
-/

/-- A built-in way to replace calls. -/
inductive InlineMacro where
  /-- A macro definition. -/
  | definition
  /-- A call of an output method. -/
  | output (method : String)
deriving DecidableEq, Repr

/-- The built-in replacements by name. -/
abbrev InlineMacros := NameMap InlineMacro

namespace InlineMacros

/-- The inline macros that every session has. -/
def builtins : InlineMacros := .ofList
  [("macro", .definition), ("defmacro", .definition), ("puts", .output "println"),
   ("print", .output "print")]

end InlineMacros

/-- What inline expansion depends on: the macros and the name of the source. -/
structure InlineEnv where
  macros : InlineMacros
  source : String

namespace Node

/-- The stream that output goes to. -/
def outputStream (s : Span) : Node := ⟨s, .call ⟨s, .constant "System"⟩ "out" [] none⟩

/-- The failure of an output shorthand that is given a block. -/
def blockRefused (source name : String) (s : Span) : Diagnostic :=
  .report "transform" source (.expansionFailed name "does not take a block") s

variable {m : Type → Type} [Monad m]

/-- A definition put in the place of the call that makes it.  If it makes none,
    the failure is handed to `fail` and leaves a marker. -/
def expandDefinitionM (env : InlineEnv) (fail : Diagnostic → m Unit) (name : String)
    (call : Node) : m Node :=
  match MacroSpec.ofCall env.source name call with
  | .ok spec => pure ⟨call.span, .macroDef spec.name spec.args spec.body none⟩
  | .error d => do
    fail d
    return ⟨call.span, .error d.message⟩

mutual

/-- A tree with its inline macros expanded.  Inside quoted text only the holes
    are expanded.  Failures are handed to `fail`; if it goes on, a marker is left. -/
def expandInlineM (env : InlineEnv) (fail : Diagnostic → m Unit) (quoted : Bool) :
    Node → m Node
  | ⟨s, .ident name⟩ =>
    match if quoted then none else env.macros.get? name with
    | none => pure ⟨s, .ident name⟩
    | some .definition => expandDefinitionM env fail name ⟨s, .invoke name [] none⟩
    | some (.output method) => pure ⟨s, .call (outputStream s) method [] none⟩
  | ⟨s, .invoke name args block⟩ =>
    match if quoted then none else env.macros.get? name with
    | none => do
      let args ← expandInlineListM env fail quoted args
      let block ← expandInlineOptM env fail quoted block
      return ⟨s, .invoke name args block⟩
    | some .definition => expandDefinitionM env fail name ⟨s, .invoke name args block⟩
    | some (.output method) =>
      match block with
      | some _ => do
        fail (blockRefused env.source name s)
        return ⟨s, .error (blockRefused env.source name s).message⟩
      | none => do
        let args ← expandInlineListM env fail quoted args
        return ⟨s, .call (outputStream s) method args none⟩
  | ⟨s, .quote body⟩ =>
    if quoted then pure ⟨s, .quote body⟩
    else do return ⟨s, .quote (← expandInlineM env fail true body)⟩
  | ⟨s, .unquote v⟩ => do return ⟨s, .unquote (← expandInlineM env fail false v)⟩
  | ⟨s, .assign name v⟩ => do return ⟨s, .assign name (← expandInlineM env fail quoted v)⟩
  | ⟨s, .fieldAssign name v⟩ => do
    return ⟨s, .fieldAssign name (← expandInlineM env fail quoted v)⟩
  | ⟨s, .call target name args block⟩ => do
    let target ← expandInlineM env fail quoted target
    let args ← expandInlineListM env fail quoted args
    let block ← expandInlineOptM env fail quoted block
    return ⟨s, .call target name args block⟩
  | ⟨s, .cond test yes no⟩ => do
    let test ← expandInlineM env fail quoted test
    let yes ← expandInlineM env fail quoted yes
    let no ← expandInlineOptM env fail quoted no
    return ⟨s, .cond test yes no⟩
  | ⟨s, .body items⟩ => do return ⟨s, .body (← expandInlineListM env fail quoted items)⟩
  | ⟨s, .block params body brace⟩ => do
    return ⟨s, .block params (← expandInlineM env fail quoted body) brace⟩
  | ⟨s, .classDef name superclass body⟩ => do
    return ⟨s, .classDef name superclass (← expandInlineM env fail quoted body)⟩
  | ⟨s, .methodDef name params returns body⟩ => do
    let params ← expandInlineParamsM env fail quoted params
    let body ← expandInlineM env fail quoted body
    return ⟨s, .methodDef name params returns body⟩
  | ⟨s, f⟩ => pure ⟨s, f⟩

/-- Several trees with their inline macros expanded. -/
def expandInlineListM (env : InlineEnv) (fail : Diagnostic → m Unit) (quoted : Bool) :
    List Node → m (List Node)
  | [] => pure []
  | n :: ns => do
    let n ← expandInlineM env fail quoted n
    let ns ← expandInlineListM env fail quoted ns
    return n :: ns

/-- A tree that may be absent, with its inline macros expanded. -/
def expandInlineOptM (env : InlineEnv) (fail : Diagnostic → m Unit) (quoted : Bool) :
    Option Node → m (Option Node)
  | none => pure none
  | some n => do return some (← expandInlineM env fail quoted n)

/-- Parameters with the inline macros of their defaults expanded. -/
def expandInlineParamsM (env : InlineEnv) (fail : Diagnostic → m Unit) (quoted : Bool) :
    List Parameter → m (List Parameter)
  | [] => pure []
  | ⟨name, type, default, block⟩ :: ps => do
    let default ← expandInlineOptM env fail quoted default
    let ps ← expandInlineParamsM env fail quoted ps
    return ⟨name, type, default, block⟩ :: ps

end

/-- A tree with its inline macros expanded, or the first failure. -/
def expandInline (env : InlineEnv) (n : Node) : Except Diagnostic Node :=
  expandInlineM env throw false n

/-- A tree with its inline macros expanded, with a marker for each failure. -/
def expandInlineAll (env : InlineEnv) (n : Node) : Node × List Diagnostic :=
  (expandInlineM (m := StateM (List Diagnostic)) env (fun d => modify (· ++ [d])) false n).run []

end Node

end Quasiquote
