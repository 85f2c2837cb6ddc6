import Quasiquote.Session.Descriptors
import Quasiquote.Template.Evaluation
import Quasiquote.Unit.Evaluator

namespace Quasiquote

/-!
# Typing — the state of the type checker

Typing walks over a tree, replaces macro calls by their expansions, and finds the
static type of every expression.  It fails on nothing: errors are collected, and
the tree is marked where they occur.

* `Scope` — where the typed code stands;
* `Typing`, `TypeM` — the state, and computations on it; one that is cut off
  answers the state that it had reached;
* `TypeM.report` — collects an error;
* `TypeM.expandCall` — runs the unit of a macro on a call.
-/

/-- Where the typed code stands. -/
structure Scope where
  selfType : TypeRef
  /-- The type whose macros the code of a unit may call unqualified. -/
  lexicalOwner : Option String := none
  scriptType : String

namespace Scope

/-- The scope of the code of a script. -/
def script (scriptType : String) : Scope := { selfType := .named scriptType, scriptType }

/-- The scope of the unit of a macro that belongs to `owner`. -/
def unit (name owner scriptType : String) : Scope :=
  { selfType := .named name, lexicalOwner := some owner, scriptType }

/-- The scope inside a class. -/
def inClass (s : Scope) (selfType : TypeRef) : Scope := { s with selfType }

/-- The types whose macros are called unqualified, in the order of search. -/
def macroOwners (s : Scope) : List String :=
  (s.selfType.owner.toList ++ s.lexicalOwner.toList ++ [s.scriptType]).eraseDups

/-- The type that definitions belong to. -/
def owner (s : Scope) : String := s.selfType.owner.getD s.scriptType

end Scope

/-- The state of the type checker. -/
structure Typing where
  work : Work
  /-- The local variables in scope. -/
  locals : NameMap TypeRef := {}
  errors : List Diagnostic := []

/-- Computations of the type checker.  One that nests too deep is cut off, and
    answers the state that it had reached. -/
abbrev TypeM := StateT Typing (Except Typing)

namespace TypeM

/-- Cuts a computation off. -/
def cutOff {α : Type} : TypeM α := fun t => .error t

/-- The session. -/
def session : TypeM Session := do return (← get).work.session

/-- Changes the session. -/
def modifySession (f : Session → Session) : TypeM Unit :=
  modify fun t => { t with work := { t.work with session := f t.work.session } }

/-- Runs a computation of the session and answers its result or its failure. -/
def attempt {α : Type} (body : SessionM α) : TypeM (Except Diagnostic α) := do
  let t ← get
  let (result, work) := body.run t.work
  set { t with work }
  return result

/-- Collects a failure. -/
def collect (d : Diagnostic) : TypeM Unit := modify fun t => { t with errors := t.errors ++ [d] }

/-- A failure of typing at a place in the current source. -/
def failureAt (cause : Cause) (s : Span) : TypeM Diagnostic := do
  return .report "typer" (← session).source cause s

/-- Collects a failure of typing.  What failed may have any type. -/
def report (cause : Cause) (s : Span) : TypeM TypeRef := do
  collect (← failureAt cause s)
  return .any

/-- Collects a failure as one of a place in the current source. -/
def collectAt (d : Diagnostic) (s : Span) : TypeM Unit := do
  collect (d.reanchor s (← session).source)

/-- Runs a computation with local variables of its own. -/
def withLocals {α : Type} (locals : NameMap TypeRef) (body : TypeM α) : TypeM α := do
  let outer := (← get).locals
  modify fun t => { t with locals }
  let a ← body
  modify fun t => { t with locals := outer }
  return a

/-- Gives a local variable a type. -/
def assign (name : String) (type : TypeRef) : TypeM Unit :=
  modify fun t => { t with locals := t.locals.insert name type }

/-! ### Expansion -/

/-- How templates are evaluated while a call is expanded. -/
def evaluation (s : Session) : Evaluation := ⟨s.inlineEnv, s.sites.head?⟩

/-- Runs a unit on a call.  What it makes stands where the call stands, and its
    inline macros are expanded. -/
def expandCall (unit : LoadedUnit) (call : Node) : TypeM (Except Diagnostic Node) := do
  modifySession fun s => { s with sites := call.span :: s.sites }
  let s ← session
  let r := unit.expand (evaluation s).template call s.scopes
  modify fun t => { t with work.world.printed := t.work.world.printed ++ r.output }
  modifySession fun s => { s with sites := s.sites.drop 1, scopes := r.scopes }
  match r.result with
  | .error d => return .error d
  | .ok n => return (n.withSpan call.span).expandInline (← session).inlineEnv

end TypeM

end Quasiquote
