import Quasiquote.Node.Printer
import Quasiquote.NameMap
import Quasiquote.Unit.Image

namespace Quasiquote

/-!
# Lowering — from classes to unit files

A unit is run by a small evaluator, which knows no quotes.  So every quote is
lowered to a call that is given the text of the template, a label for it, and the
values of its holes.

* `Node.lower` — a tree without quotes;
* `Artifacts` — unit files by the names of their units;
* `Artifacts.ofProgram` — a file for each class of a program.
-/

/-- Computations that may fail and use template scopes. -/
abbrev TemplateM := ExceptT Diagnostic (StateM (Scopes Node))

namespace Node

/-- The call that a quote is lowered to. -/
def quoteCall (s : Span) (text label : String) (holes : List Node) : Node :=
  ⟨s, .call ⟨s, .field "mirah"⟩ "quote" (⟨s, .str text⟩ :: ⟨s, .str label⟩ :: holes) none⟩

/-- The text of a template, printed in a scope of its own. -/
def templateText (label : String) (s : Span) (body : Node) : TemplateM String :=
  ExceptT.mk do
    let (text, _) ← Scopes.extract (printTemplate body).run
    return text.mapError fun e => e.toUnplaced.reanchor s label

mutual

/-- A tree in which every quote is lowered. -/
def lower (label : String) : Node → TemplateM Node
  | ⟨s, .quote body⟩ => do
    let text ← templateText Diagnostic.fallback s body
    let holes ← lowerHoles label body
    return quoteCall s text label holes
  | ⟨s, .unquote v⟩ => do return ⟨s, .unquote (← lower label v)⟩
  | ⟨s, .assign name v⟩ => do return ⟨s, .assign name (← lower label v)⟩
  | ⟨s, .fieldAssign name v⟩ => do return ⟨s, .fieldAssign name (← lower label v)⟩
  | ⟨s, .call target name args block⟩ => do
    let target ← lower label target
    let args ← lowerList label args
    let block ← lowerOpt label block
    return ⟨s, .call target name args block⟩
  | ⟨s, .invoke name args block⟩ => do
    let args ← lowerList label args
    let block ← lowerOpt label block
    return ⟨s, .invoke name args block⟩
  | ⟨s, .cond test yes no⟩ => do
    let test ← lower label test
    let yes ← lower label yes
    let no ← lowerOpt label no
    return ⟨s, .cond test yes no⟩
  | ⟨s, .body items⟩ => do return ⟨s, .body (← lowerList label items)⟩
  | ⟨s, .block params body brace⟩ => do return ⟨s, .block params (← lower label body) brace⟩
  | ⟨s, .classDef name superclass body⟩ => do
    return ⟨s, .classDef name superclass (← lower label body)⟩
  | ⟨s, .methodDef name params returns body⟩ => do
    let params ← lowerParams label params
    let body ← lower label body
    return ⟨s, .methodDef name params returns body⟩
  | ⟨s, f⟩ => return ⟨s, f⟩

/-- Several trees in which every quote is lowered. -/
def lowerList (label : String) : List Node → TemplateM (List Node)
  | [] => return []
  | n :: ns => do
    let n ← lower label n
    let ns ← lowerList label ns
    return n :: ns

/-- A tree that may be absent, with every quote lowered. -/
def lowerOpt (label : String) : Option Node → TemplateM (Option Node)
  | none => return none
  | some n => do return some (← lower label n)

/-- Parameters in whose defaults every quote is lowered. -/
def lowerParams (label : String) : List Parameter → TemplateM (List Parameter)
  | [] => return []
  | ⟨name, type, default, block⟩ :: ps => do
    let default ← lowerOpt label default
    let ps ← lowerParams label ps
    return ⟨name, type, default, block⟩ :: ps

/-- The lowered values of the holes of a quoted tree, in the order in which they
    are printed.  Quotes inside the tree keep theirs. -/
def lowerHoles (label : String) : Node → TemplateM (List Node)
  | ⟨_, .unquote v⟩ => do return [← lower label v]
  | ⟨_, .assign _ v⟩ => lowerHoles label v
  | ⟨_, .fieldAssign _ v⟩ => lowerHoles label v
  | ⟨_, .call target _ args block⟩ => do
    let hs ← lowerHoles label target
    let is ← lowerHolesList label args
    let js ← lowerHolesOpt label block
    return hs ++ is ++ js
  | ⟨_, .invoke _ args block⟩ => do
    let hs ← lowerHolesList label args
    let is ← lowerHolesOpt label block
    return hs ++ is
  | ⟨_, .cond test yes no⟩ => do
    let hs ← lowerHoles label test
    let is ← lowerHoles label yes
    let js ← lowerHolesOpt label no
    return hs ++ is ++ js
  | ⟨_, .body items⟩ => lowerHolesList label items
  | ⟨_, .block _ body _⟩ => lowerHoles label body
  | ⟨_, .classDef _ _ body⟩ => lowerHoles label body
  | ⟨_, .methodDef _ params _ body⟩ => do
    let hs ← lowerHolesParams label params
    let is ← lowerHoles label body
    return hs ++ is
  | ⟨_, .macroDef _ args body _⟩ => do
    let hs ← lowerHolesArgs label args
    let is ← lowerHoles label body
    return hs ++ is
  | ⟨_, _⟩ => return []

/-- The lowered values of the holes of several trees. -/
def lowerHolesList (label : String) : List Node → TemplateM (List Node)
  | [] => return []
  | n :: ns => do
    let hs ← lowerHoles label n
    let is ← lowerHolesList label ns
    return hs ++ is

/-- The lowered values of the holes of a tree that may be absent. -/
def lowerHolesOpt (label : String) : Option Node → TemplateM (List Node)
  | none => return []
  | some n => lowerHoles label n

/-- The lowered values of the holes in the defaults of parameters. -/
def lowerHolesParams (label : String) : List Parameter → TemplateM (List Node)
  | [] => return []
  | ⟨_, _, default, _⟩ :: ps => do
    let hs ← lowerHolesOpt label default
    let is ← lowerHolesParams label ps
    return hs ++ is

/-- The lowered values of the holes in the defaults of macro arguments. -/
def lowerHolesArgs (label : String) : List Argument → TemplateM (List Node)
  | [] => return []
  | .required _ :: args => lowerHolesArgs label args
  | .optional _ default :: args => do
    let hs ← lowerHoles label default
    let is ← lowerHolesArgs label args
    return hs ++ is
  | .block _ _ :: args => lowerHolesArgs label args

end

end Node

namespace UnitImage

/-- A class that cannot be compiled. -/
def rejected {α : Type} (unit reason : String) : Except Diagnostic α :=
  .error (.unplaced "codegen" (.buildFailed unit reason))

/-- The compiled members of a class.  Only methods can be compiled. -/
def methodsOf (unit : String) : List Node → TemplateM (List MethodImage)
  | [] => return []
  | ⟨_, .methodDef name params _ body⟩ :: rest => do
    let body ← body.lower (unit ++ "#" ++ name)
    let methods ← methodsOf unit rest
    return ⟨name, params.map Parameter.name, body⟩ :: methods
  | ⟨_, .noop⟩ :: rest => methodsOf unit rest
  | n :: _ => ExceptT.mk (pure (rejected unit ("unexpected " ++ n.describe ++ " in class body")))

/-- The image of a class. -/
def ofClass (name : String) (superclass : Option String) (body : Node) : TemplateM UnitImage := do
  return ⟨name, superclass, ← methodsOf name body.statements⟩

end UnitImage

/-- Unit files by the names of their units. -/
abbrev Artifacts := NameMap String

namespace Artifacts

/-- Adds a file for each class among statements. -/
def addClasses (files : Artifacts) : List Node → TemplateM Artifacts
  | [] => return files
  | ⟨_, .classDef name superclass body⟩ :: rest => do
    let image ← UnitImage.ofClass name superclass body
    addClasses (files.insert name (Artifact.sealed image).encode) rest
  | _ :: rest => addClasses files rest

/-- A file for each class of a program, of which there has to be one. -/
def ofProgram (program : Node) : TemplateM Artifacts := do
  let files ← addClasses {} program.statements
  if files.entries.isEmpty then
    ExceptT.mk (pure (UnitImage.rejected "<unit>" "no class to compile"))
  else return files

end Artifacts

end Quasiquote
