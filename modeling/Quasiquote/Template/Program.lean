import Quasiquote.Template.Scopes

namespace Quasiquote

/-!
# Template programs — sequences of operations on scopes

Any way of using template scopes is a tree of steps: values captured and
resolved, scopes opened around further steps, and failures raised or tolerated.

* `TemplateStep` — one step;
* `TemplateEvent` — what a step reports when it is done;
* `TemplateStep.runAll` — steps run one after the other until one fails.
-/

/-- One operation on template scopes.  The flag `tolerant` lets the steps after a
    failing one go on. -/
inductive TemplateStep (α : Type) where
  | depth
  | capture (value : α) (tolerant : Bool)
  | resolve (ordinal : Nat) (tolerant : Bool)
  | extract (body : List (TemplateStep α)) (tolerant : Bool)
  | inject (values : List α) (body : List (TemplateStep α)) (tolerant : Bool)
  | fail (hole : String) (tolerant : Bool)
deriving Inhabited

/-- What a step reports when it is done. -/
inductive TemplateEvent (α : Type) where
  | depth (count : Nat)
  | ordinal (n : Nat)
  | value (v : α)
  | captured (values : List α)
  | injected
  | failed (error : TemplateError)

namespace TemplateStep

variable {α : Type}

/-- Steps run on scopes, and what has been reported so far. -/
abbrev Run (α : Type) := ExceptT TemplateError (StateT (Scopes α) (StateM (List (TemplateEvent α))))

/-- Reports an event. -/
def log (e : TemplateEvent α) : StateT (Scopes α) (StateM (List (TemplateEvent α))) Unit :=
  StateT.lift (modify (· ++ [e]))

/-- Runs an operation and reports its result or its failure. -/
def logged {β : Type} (event : β → TemplateEvent α) (op : Run α β) : Run α Unit :=
  ExceptT.mk do
    match ← op.run with
    | .ok v => log (event v); return .ok ()
    | .error e => log (.failed e); return .error e

/-- Lets a failure pass if it is tolerated. -/
def tolerate (tolerant : Bool) (op : Run α Unit) : Run α Unit :=
  ExceptT.mk do
    match ← op.run with
    | .ok () => return .ok ()
    | .error e => return if tolerant then .ok () else .error e

mutual

/-- Runs one step. -/
def run : TemplateStep α → Run α Unit
  | .depth => ExceptT.mk do
    log (.depth (← get).length)
    return .ok ()
  | .capture v tolerant => tolerate tolerant (logged .ordinal (Scopes.capture v))
  | .resolve i tolerant => tolerate tolerant (logged .value (Scopes.resolve i))
  | .extract body tolerant => tolerate tolerant <| ExceptT.mk do
    let (result, captured) ← Scopes.extract (runAll body).run
    log (.captured captured)
    return result
  | .inject values body tolerant =>
    tolerate tolerant (logged (fun _ => .injected) (Scopes.inject values id (runAll body)))
  | .fail hole tolerant => tolerate tolerant (throw (.outsideExpansion hole))

/-- Runs steps one after the other until one fails. -/
def runAll : List (TemplateStep α) → Run α Unit
  | [] => pure ()
  | s :: rest => do
    run s
    runAll rest

end

/-- Runs a program from no scopes at all: what it reports, how it ends, and how
    many scopes it leaves open. -/
def execute (steps : List (TemplateStep α)) :
    List (TemplateEvent α) × Except TemplateError Unit × Nat :=
  let ((result, scopes), events) := ((runAll steps).run.run []).run []
  (events, result, scopes.length)

end TemplateStep

end Quasiquote
