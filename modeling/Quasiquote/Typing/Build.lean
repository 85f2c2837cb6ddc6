import Quasiquote.Typing.Infer

namespace Quasiquote

/-!
# Building macros — from a definition to a macro that can be called

A definition is built once.  Its unit is put together, typed like any program,
compiled and loaded; then the macro is registered on its owner and recorded in the
owner's descriptor.

* `Typer.expansionLimit` — how many expansions may come from each other;
* `Typer.within` — typing where a given number of expansions is left;
* `Typer.require` — builds a definition unless it was built before;
* `Typer.inferWithin` — a typed tree, where builds nest up to a given depth.

A macro may be needed while another one is built, so builds nest, and each one
starts again with all expansions left.
-/

namespace Typer

/-- How many expansions may come from each other. -/
def expansionLimit : Nat := 64

/-- Typing with `n` more expansions inside each other. -/
def within (build : Nat → TypeM (Except Diagnostic Unit)) : Nat → Scope → Node →
    TypeM (Node × TypeRef)
  | 0, scope, n => infer ⟨build, expansionLimit, none⟩ scope n
  | left + 1, scope, n =>
    infer ⟨build, expansionLimit - (left + 1), some (within build left)⟩ scope n

/-! ### The steps of a build -/

/-- Notes how far a definition is. -/
def transition (id : Nat) (state : BuildState) : TypeM Unit :=
  TypeM.modifySession (·.modifyDefinition id fun d => { d with state })

/-- The failure of a definition that is needed while it is built. -/
def reentrant (d : MacroDefinition) : Diagnostic :=
  .report "macro" d.source (.requiredTooEarly d.spec.name) d.span

/-- The failure of a build, reported where the macro is defined. -/
def buildFailure (d : MacroDefinition) (unit : Option String) (e : Diagnostic) : Diagnostic :=
  match e.cause with
  | .requiredTooEarly _ | .loadFailed _ _ => e.reanchor d.span d.source
  | _ =>
    (Diagnostic.report "macro" d.source (.buildFailed d.spec.name e.message) d.span).withHelp
      ("raised while building extension unit " ++ unit.getD "<unnamed>")

/-- The records that a macro leaves in the descriptor of its owner. -/
def recordsOf (spec : MacroSpec) (unit : String) : List MacroRecord :=
  ⟨spec.name, spec.signature, unit⟩ ::
    (if spec.hasOptionalBlock then [⟨spec.name, spec.signature.withoutBlock, unit⟩] else [])

/-- A type with one more macro, which is callable without its block if that is
    optional. -/
def withMacro (spec : MacroSpec) (unit : String) (loaded : LoadedUnit) (t : OwnerType) :
    OwnerType :=
  let t := (t.addMacro spec.name spec.signature loaded).1
  let t := if spec.hasOptionalBlock then (t.addOverload spec.name spec.signature loaded).1 else t
  (recordsOf spec unit).foldl OwnerType.recordMacro t

/-- Registers a macro on its owner.  If the owner is not written out, a warning
    says so. -/
def registerMacro (d : MacroDefinition) (unit : String) (loaded : LoadedUnit) :
    SessionM Unit := do
  let types := (← get).session.types
  match types.get? d.owner with
  | none => throw (.report "macro" d.source (.undefinedName d.owner "macro owner") d.span)
  | some owner =>
    SessionM.modifySession fun s =>
      { s with types := s.types.modify d.owner (withMacro d.spec unit loaded) }
    if owner.descriptor.isNone then
      SessionM.modifySession fun s => { s with warnings := s.warnings ++
        [.report "macro" d.source (.sessionOnly d.owner d.spec.name) d.span] }

/-- The last part of the names of units, before their numbers. -/
def unitSuffix : String := "$Extension"

/-- Gives a definition the name of its unit and puts the unit together. -/
def extend (id : Nat) (d : MacroDefinition) : SessionM (String × Node) := do
  let name ← SessionM.freshName (d.owner ++ unitSuffix)
  let unit := (← get).unitName name
  SessionM.modifySession (·.modifyDefinition id fun d => { d with unit := some unit })
  return (unit, ← SessionM.transform (Extension.ofSpec unit d.spec d.span))

/-- Writes the artifacts of a unit, if the session writes any. -/
def persist (files : Artifacts) : SessionM Unit := do
  match (← get).session.settings.destination with
  | none => return ()
  | some root =>
    let _ ← SessionM.onFiles (files.write root)
    return ()

/-- Runs a step of the session inside a build. -/
def step {α : Type} (body : SessionM α) : ExceptT Diagnostic TypeM α :=
  ExceptT.mk (TypeM.attempt body)

/-- Types the unit of a macro.  Its first error is the failure of the build. -/
def inferUnit (typed : Scope → Node → TypeM (Node × TypeRef)) (scope : Scope) (n : Node) :
    ExceptT Diagnostic TypeM Node :=
  ExceptT.mk do
    let outer ← get
    modify fun t => { t with locals := {}, errors := [] }
    let (n, _) ← typed scope n
    let errors := (← get).errors
    modify fun t => { t with locals := outer.locals, errors := outer.errors }
    match errors with
    | [] => return .ok n
    | e :: _ => return .error e

/-- Puts the unit of a macro together, types it and compiles it. -/
def prepare (typed : Scope → Node → TypeM (Node × TypeRef)) (id : Nat)
    (d : MacroDefinition) : ExceptT Diagnostic TypeM (String × Artifacts) := do
  let (unit, n) ← step (extend id d)
  ExceptT.lift (transition id .compiling)
  let scriptType := (← ExceptT.lift TypeM.session).types.scriptType
  let n ← inferUnit typed (Scope.unit unit d.owner scriptType) n
  return (unit, ← step (SessionM.onScopes (Artifacts.ofProgram n)))

/-- Loads the unit of a macro and registers the macro. -/
def publish (id : Nat) (d : MacroDefinition) (unit : String) (files : Artifacts) :
    ExceptT Diagnostic TypeM Unit := do
  ExceptT.lift (transition id .loading)
  let loaded ← step (SessionM.loadUnit unit files)
  ExceptT.lift (transition id .registering)
  step (registerMacro d unit loaded)

/-- The steps of the build of a definition that is noted as being built. -/
def buildSteps (typed : Scope → Node → TypeM (Node × TypeRef)) (id : Nat)
    (d : MacroDefinition) : ExceptT Diagnostic TypeM Unit := do
  let (unit, files) ← prepare typed id d
  publish id d unit files
  step (persist files)

/-- Notes the outcome of a build. -/
def conclude (id : Nat) (d : MacroDefinition) :
    Except Diagnostic Unit → TypeM (Except Diagnostic Unit)
  | .ok () => do
    transition id .resolved
    return .ok ()
  | .error e => do
    let unit := ((← TypeM.session).definition? id).bind MacroDefinition.unit
    let e := buildFailure d unit e
    TypeM.modifySession (·.modifyDefinition id fun d =>
      { d with state := .failed, failure := some e })
    return .error e

/-- Builds the macro of a definition and notes the outcome. -/
def buildDefinition (typed : Scope → Node → TypeM (Node × TypeRef)) (id : Nat)
    (d : MacroDefinition) : TypeM (Except Diagnostic Unit) := do
  transition id .extending
  conclude id d (← (buildSteps typed id d).run)

/-! ### Nested builds -/

/-- Sees to it that a definition is built, where builds nest `n` deep at most.  One
    that was built before keeps its outcome. -/
def require : Nat → Nat → TypeM (Except Diagnostic Unit)
  | n, id => do
    let s ← TypeM.session
    match s.definition? id with
    | none =>
      return .error (.internal "macro" s.source
        ("unknown macro definition #" ++ toString id) Span.zero)
    | some d => match d.state with
      | .resolved => return .ok ()
      | .failed => return .error (d.failure.getD (reentrant d))
      | .unresolved => match n with
        | 0 => TypeM.cutOff
        | n + 1 => buildDefinition (within (require n) expansionLimit) id d
      | _ => return .error (reentrant d)

/-- A tree with its macro calls expanded and its type, where builds nest `n` deep at
    most. -/
def inferWithin (n : Nat) (scope : Scope) (tree : Node) : TypeM (Node × TypeRef) :=
  within (require n) expansionLimit scope tree

end Typer

end Quasiquote
