import Quasiquote.Session.Basic

namespace Quasiquote

/-!
# Descriptor files — types across sessions

A session writes the descriptor of each of its types, and a later session reads
it back when a program mentions the type.

* `Descriptor.find` — the descriptor of a type along the classpath;
* `OwnerType.ofDescriptor` — the type that a descriptor and the units of its
  macros make up;
* `SessionM.importType` — brings a type of an earlier session in;
* `SessionM.writeDescriptors` — writes the types of this one.
-/

namespace Descriptor

/-- The written path of a type's descriptor below a directory. -/
def pathIn (root type : String) : String := Path.join root (type ++ ".kdesc")

/-- The descriptor of a type in the first of several directories that has one. -/
def find (fs : Files) (type : String) : List String → Except Diagnostic (Option Descriptor)
  | [] => .ok none
  | root :: roots =>
    let path := pathIn root type
    match fs.text? (Path.ofText path) with
    | none => find fs type roots
    | some text => match decode? text with
      | some d => .ok (some d)
      | none => .error
          (.ofConfiguration ("malformed descriptor '" ++ path ++ "': not a descriptor"))

/-- Whether a record is the form of another macro that is called without its
    block. -/
def isBlockless (d : Descriptor) (r : MacroRecord) : Bool :=
  !r.signature.hasBlock && d.macros.any fun other =>
    other.unit == r.unit && other.signature.hasBlock &&
      other.signature.withoutBlock == r.signature

/-- Writes descriptors into a directory and answers their paths. -/
def writeAll (root : String) : List Descriptor → FilesM (List String)
  | [] => return []
  | d :: ds => do
    let path := pathIn root d.name
    FilesM.makeDirectory root
    FilesM.write path d.encode
    return path :: (← writeAll root ds)

end Descriptor

/-- The type that a descriptor describes, given the unit of each macro record. -/
def OwnerType.ofDescriptor (d : Descriptor) (macros : List (MacroRecord × LoadedUnit)) :
    OwnerType where
  name := d.name
  superclass := d.superclass
  methods := .ofList (d.methods.map fun m => (m.name, Method.ofRecord m))
  macros := macros.foldl (fun t (r, unit) =>
    (t.add ⟨r.name, r.signature, if d.isBlockless r then .blockless else .full, unit⟩).1) {}
  descriptor := some d

namespace SessionM

/-- The units of macro records. -/
def resolveAll : List MacroRecord → SessionM (List (MacroRecord × LoadedUnit))
  | [] => return []
  | r :: rs => do
    let unit ← resolveUnit r.unit
    return (r, unit) :: (← resolveAll rs)

/-- Brings a type of an earlier session in; answers whether there is one. -/
def importType (name : String) : SessionM Bool := do
  let k ← get
  match ← ExceptT.mk (pure (Descriptor.find k.world.files name k.session.settings.classpath)) with
  | none => return false
  | some d =>
    let macros ← resolveAll d.macros
    modifySession fun s => { s with types := s.types.install (.ofDescriptor d macros) }
    return true

/-- Writes the descriptor of every type that has one and answers the paths. -/
def writeDescriptors : SessionM (List String) := do
  let k ← get
  match k.session.settings.destination with
  | none => return []
  | some root => onFiles (Descriptor.writeAll root k.session.types.descriptors)

end SessionM

end Quasiquote
