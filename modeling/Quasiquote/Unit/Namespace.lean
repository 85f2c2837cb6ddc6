import Quasiquote.Files
import Quasiquote.Unit.Lowering

namespace Quasiquote

/-!
# Namespaces — the units that are loaded

A namespace never holds two different units under one name.  Units come into it
from artifacts that were just compiled, or from the files of earlier sessions.

* `Namespace` — loaded units by name;
* `Namespace.publish` — adds several units, or none if one of them conflicts;
* `Namespace.load` — publishes compiled artifacts;
* `Namespace.resolve` — the unit of a name, loaded or from a file;
* `Artifacts.write` — the files that `Namespace.resolve` reads.
-/

/-- Loaded units by name. -/
abbrev Namespace := NameMap LoadedUnit

/-- The written path of a unit's file below a directory. -/
def unitPath (root unit : String) : String :=
  Path.join root
    (String.ofList (unit.toList.map fun c => if c = '.' then '/' else c) ++ ".kunit")

namespace Artifacts

/-- Writes files, given by the names of their units, below a directory.  Answers
    their paths. -/
def writeAll (root : String) : List (String × String) → FilesM (List String)
  | [] => return []
  | (unit, text) :: rest => do
    let path := unitPath root unit
    FilesM.makeDirectory (Path.around path)
    FilesM.write path text
    return path :: (← writeAll root rest)

/-- Writes every artifact below a directory and answers the paths. -/
def write (root : String) (files : Artifacts) : FilesM (List String) :=
  writeAll root files.entries

end Artifacts

namespace Namespace

/-- A unit that cannot be loaded. -/
def failure (unit reason : String) : Diagnostic := .unplaced "load" (.loadFailed unit reason)

/-! ### Publishing -/

/-- Whether another unit has the name of `u`. -/
def conflicts (ns : Namespace) (u : LoadedUnit) : Bool :=
  match ns.get? u.name with
  | some v => v.checksum != u.checksum
  | none => false

/-- Adds a unit unless there is one of its name. -/
def add (ns : Namespace) (u : LoadedUnit) : Namespace :=
  if ns.contains u.name then ns else ns.insert u.name u

/-- Adds units.  A single conflict keeps all of them out. -/
def publish (ns : Namespace) (units : List LoadedUnit) : Except ArtifactError Namespace :=
  match units.find? (conflicts ns) with
  | some u => .error (.conflict u.name)
  | none => .ok (units.foldl add ns)

/-- Publishes units and answers the one of a name. -/
def publishFor (ns : Namespace) (unit : String) (units : List LoadedUnit) :
    Except Diagnostic (LoadedUnit × Namespace) :=
  match ns.publish units with
  | .error e => .error (failure unit e.message)
  | .ok ns' => match ns'.get? unit with
    | some u => .ok (u, ns')
    | none => .error (failure unit "no artifact for this unit")

/-! ### Loading -/

/-- The unit in a file that should hold the unit of a name. -/
def decode (unit text : String) : Except Diagnostic LoadedUnit :=
  match Artifact.decode text with
  | .error e => .error (failure unit e.message)
  | .ok a =>
    if a.image.name = unit then .ok ⟨a.checksum, a.image⟩
    else .error (failure unit (ArtifactError.nameMismatch unit a.image.name).message)

/-- The units in several files. -/
def decodeAll : List (String × String) → Except Diagnostic (List LoadedUnit)
  | [] => .ok []
  | (unit, text) :: rest => do
    let u ← decode unit text
    return u :: (← decodeAll rest)

/-- Loads artifacts and answers the unit of a name. -/
def load (ns : Namespace) (unit : String) (files : Artifacts) :
    Except Diagnostic (LoadedUnit × Namespace) :=
  if files.contains unit then do
    ns.publishFor unit (← decodeAll files.entries)
  else .error (failure unit "no artifact for this unit")

/-- The first file of a unit along a list of directories. -/
def fileOf (fs : Files) (classpath : List String) (unit : String) : Option String :=
  classpath.findSome? fun root => fs.text? (Path.ofText (unitPath root unit))

/-- The unit of a name, which is loaded if it is not yet. -/
def resolve (ns : Namespace) (fs : Files) (classpath : List String) (unit : String) :
    Except Diagnostic (LoadedUnit × Namespace) :=
  match ns.get? unit with
  | some u => .ok (u, ns)
  | none => match fileOf fs classpath unit with
    | some text => do ns.publishFor unit [← decode unit text]
    | none => .error (failure unit "unit not found on the classpath")

/-- Whether a unit is loaded or has a file. -/
def knows (ns : Namespace) (fs : Files) (classpath : List String) (unit : String) : Bool :=
  ns.contains unit || (fileOf fs classpath unit).isSome

/-! ### What publishing keeps -/

/-- A name that is taken keeps its unit. -/
theorem get?_add_of_some {ns : Namespace} {name : String} {u : LoadedUnit} (v : LoadedUnit)
    (h : ns.get? name = some u) : (ns.add v).get? name = some u := by
  unfold add
  split
  · exact h
  · rename_i hc
    have : name ≠ v.name := by
      rintro rfl
      simp [NameMap.contains, h] at hc
    simp [NameMap.get?_insert, this, h]

/-- Adding units keeps every unit that is there. -/
theorem get?_foldl_add_of_some {ns : Namespace} {name : String} {u : LoadedUnit}
    (units : List LoadedUnit) (h : ns.get? name = some u) :
    (units.foldl add ns).get? name = some u := by
  induction units generalizing ns with
  | nil => exact h
  | cons v units ih => exact ih (get?_add_of_some v h)

/-- Publishing keeps every unit that is there. -/
theorem get?_publish_of_some {ns ns' : Namespace} {name : String} {u : LoadedUnit}
    {units : List LoadedUnit} (hp : ns.publish units = .ok ns') (h : ns.get? name = some u) :
    ns'.get? name = some u := by
  unfold publish at hp
  split at hp
  · cases hp
  · cases hp
    exact get?_foldl_add_of_some units h

end Namespace

end Quasiquote
