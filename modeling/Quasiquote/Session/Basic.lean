import Quasiquote.Macro.Inline
import Quasiquote.Settings.Basic
import Quasiquote.Types.Registry
import Quasiquote.Unit.Namespace

namespace Quasiquote

/-!
# Sessions — what a compilation knows

A session compiles sources one after the other.  It owns its types, its macro
definitions and its template scopes; files, printed text and the shared namespace
of units belong to the world around it.

* `BuildState`, `MacroDefinition` — the definitions of a session and how far they
  are;
* `World`, `Backend`, `Session` — the world, where loaded units are kept, and the
  state of a session;
* `Work`, `SessionM` — a session in its world, and computations on it;
* `Work.freshName` — names for new units;
* `SessionM.loadUnit`, `SessionM.resolveUnit` — the units of a session.
-/

/-- How far a macro definition is. -/
inductive BuildState where
  | unresolved
  /-- Its unit is being put together. -/
  | extending
  | compiling
  | loading
  | registering
  | resolved
  | failed
deriving DecidableEq, Repr

namespace BuildState

/-- Whether nothing changes any more. -/
def isFinal : BuildState → Bool
  | .resolved | .failed => true
  | _ => false

/-- Whether the definition is being built. -/
def isBuilding : BuildState → Bool
  | .unresolved | .resolved | .failed => false
  | _ => true

end BuildState

/-- A macro definition that a session has met. -/
structure MacroDefinition where
  spec : MacroSpec
  /-- The name of the type that the macro belongs to. -/
  owner : String
  span : Span
  /-- The name of the text that `span` points into. -/
  source : String
  state : BuildState := .unresolved
  /-- The name of the unit that expands the macro, once it has one. -/
  unit : Option String := none
  failure : Option Diagnostic := none

/-- What sessions share: files, loaded units, and what macros print. -/
structure World where
  files : Files := {}
  shared : Namespace := {}
  printed : String := ""

/-- Where the loaded units of a session are kept. -/
inductive Backend where
  | own (units : Namespace)
  | shared
  /-- No unit is accepted at all. -/
  | rejecting

/-- A macro call that was replaced. -/
structure ExpansionStep where
  name : String
  unit : String
  /-- How many other expansions the call comes from. -/
  depth : Nat
  call : String
  expansion : String
deriving DecidableEq, Repr

/-- The state of a session. -/
structure Session where
  settings : Settings
  types : TypeRegistry
  backend : Backend
  inline : InlineMacros := InlineMacros.builtins
  scopes : Scopes Node := []
  /-- The definitions in the order in which they were met; their places are their
      numbers. -/
  definitions : List MacroDefinition := []
  warnings : List Diagnostic := []
  expansions : List ExpansionStep := []
  /-- The number in the last name that was made. -/
  counter : Nat := 0
  /-- The calls that are being expanded, the innermost one first. -/
  sites : List Span := []
  /-- The name of the source that is compiled. -/
  source : String := Diagnostic.fallback

namespace Session

/-- A session at its start. -/
def start (settings : Settings) (backend : Backend) : Session :=
  { settings, backend, types := TypeRegistry.initial settings.scriptType }

/-- How inline macros are expanded in the current source. -/
def inlineEnv (s : Session) : InlineEnv := ⟨s.inline, s.source⟩

/-- The definition with a number. -/
def definition? (s : Session) (id : Nat) : Option MacroDefinition := s.definitions[id]?

/-- The session with one definition changed. -/
def modifyDefinition (s : Session) (id : Nat) (f : MacroDefinition → MacroDefinition) : Session :=
  { s with definitions := s.definitions.modify id f }

/-- The definitions of a name on a type that are not resolved, with their states. -/
def pending (s : Session) (owner name : String) : List (Nat × BuildState) :=
  s.definitions.zipIdx.filterMap fun (d, id) =>
    if d.owner = owner ∧ d.spec.name = name ∧ d.state ≠ .resolved then some (id, d.state)
    else none

end Session

/-- A session in its world. -/
structure Work where
  session : Session
  world : World

/-- Computations on a session in its world, which may fail. -/
abbrev SessionM := ExceptT Diagnostic (StateM Work)

namespace Work

/-- The loaded units that a session sees. -/
def units (k : Work) : Namespace :=
  match k.session.backend with
  | .own units => units
  | .shared => k.world.shared
  | .rejecting => {}

/-- The session with other loaded units. -/
def withUnits (k : Work) (units : Namespace) : Work :=
  match k.session.backend with
  | .own _ => { k with session := { k.session with backend := .own units } }
  | .shared => { k with world := { k.world with shared := units } }
  | .rejecting => k

/-- Whether the session accepts units. -/
def accepts (k : Work) : Bool :=
  match k.session.backend with
  | .rejecting => false
  | _ => true

/-- Whether a unit is loaded or has a file. -/
def knowsUnit (k : Work) (unit : String) : Bool :=
  k.accepts && k.units.knows k.world.files k.session.settings.classpath unit

/-- Whether a descriptor of the session names a unit. -/
def recordsUnit (k : Work) (unit : String) : Bool :=
  k.session.types.descriptors.any fun d => d.macros.any (·.unit == unit)

/-- Whether a unit name is taken. -/
def unitTaken (k : Work) (unit : String) : Bool := k.knowsUnit unit || k.recordsUnit unit

/-! ### New names -/

/-- The full name of a unit. -/
def unitName (k : Work) (name : String) : String := k.session.settings.package ++ "." ++ name

/-- The first number from `n` on that makes a name which is not taken, or the
    number behind `tries` that do not. -/
def freeNumber (k : Work) (base : String) : Nat → Nat → Nat
  | 0, n => n
  | tries + 1, n =>
    if k.unitTaken (k.unitName (base ++ toString n)) then freeNumber k base tries (n + 1) else n

/-- No more names than this are taken. -/
def takenBound (k : Work) : Nat :=
  k.units.size + k.world.files.entries.length +
    (k.session.types.descriptors.flatMap Descriptor.macros).length

/-- The number of the next name. -/
def nextNumber (k : Work) (base : String) : Nat :=
  k.freeNumber base k.takenBound (k.session.counter + 1)

/-- A new name, which is `base` and a number. -/
def freshName (k : Work) (base : String) : String × Work :=
  let n := k.nextNumber base
  (base ++ toString n, { k with session := { k.session with counter := n } })

end Work

namespace SessionM

/-- Runs a computation on loaded units. -/
def withUnits (unit : String)
    (f : Namespace → Work → Except Diagnostic (LoadedUnit × Namespace)) : SessionM LoadedUnit :=
  ExceptT.mk fun k =>
    if k.accepts then
      match f k.units k with
      | .ok (u, units) => (.ok u, k.withUnits units)
      | .error d => (.error d, k)
    else (.error (Namespace.failure unit "verification failed"), k)

/-- Loads artifacts and answers the unit of a name. -/
def loadUnit (unit : String) (files : Artifacts) : SessionM LoadedUnit :=
  withUnits unit fun units _ => units.load unit files

/-- The unit of a name, loaded or from the classpath. -/
def resolveUnit (unit : String) : SessionM LoadedUnit :=
  withUnits unit fun units k =>
    units.resolve k.world.files k.session.settings.classpath unit

/-- Changes the files of the world. -/
def onFiles {α : Type} (body : FilesM α) : SessionM α :=
  ExceptT.mk fun k =>
    let (result, files) := body.run k.world.files
    (result, { k with world := { k.world with files } })

/-- Runs a computation on the template scopes of the session. -/
def onScopes {α : Type} (body : TemplateM α) : SessionM α :=
  ExceptT.mk fun k =>
    let (result, scopes) := body.run k.session.scopes
    (result, { k with session := { k.session with scopes } })

/-- A tree with its inline macros expanded. -/
def transform (n : Node) : SessionM Node := do
  let k ← get
  ExceptT.mk (pure (n.expandInline k.session.inlineEnv))

/-- A new name, which is `base` and a number. -/
def freshName (base : String) : SessionM String :=
  ExceptT.mk fun k =>
    let (name, k) := k.freshName base
    (.ok name, k)

/-- Changes the session. -/
def modifySession (f : Session → Session) : SessionM Unit :=
  modify fun k => { k with session := f k.session }

end SessionM

end Quasiquote
