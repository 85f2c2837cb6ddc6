import Quasiquote.Json.Reader
import Quasiquote.Json.Record
import Quasiquote.Macro.Signature

namespace Quasiquote

/-!
# Type descriptors — what later sessions know of a type

A type that is written out has a descriptor: its name, its superclass, a record
for each of its methods, and a record for each macro that names the unit by which
its calls are expanded.

* `MethodRecord`, `MacroRecord`, `Descriptor` — the parts of a descriptor;
* `Descriptor.addMethod`, `Descriptor.addMacro` — records added or brought up to
  date;
* `Descriptor.encode`, `Descriptor.decode?` — the text of a descriptor file.
-/

/-- The record of a method. -/
structure MethodRecord where
  name : String
  params : List String
  returns : String
deriving DecidableEq, Repr

/-- The record of a macro. -/
structure MacroRecord where
  name : String
  signature : Signature
  /-- The name of the unit that expands calls. -/
  unit : String
deriving DecidableEq, Repr

/-- What is written out of a type. -/
structure Descriptor where
  name : String
  superclass : Option String := none
  methods : List MethodRecord := []
  macros : List MacroRecord := []
deriving DecidableEq, Repr

namespace Descriptor

/-- Points the record with the name and signature of `r` at the unit of `r`, or
    appends `r`; tells whether anything changed. -/
def addMacroTo (r : MacroRecord) : List MacroRecord → List MacroRecord × Bool
  | [] => ([r], true)
  | x :: xs =>
    if x.name = r.name ∧ x.signature = r.signature then
      (⟨x.name, x.signature, r.unit⟩ :: xs, x.unit != r.unit)
    else
      let (xs, changed) := addMacroTo r xs
      (x :: xs, changed)

/-- Records a macro; tells whether the descriptor changed. -/
def addMacro (d : Descriptor) (r : MacroRecord) : Descriptor × Bool :=
  let (macros, changed) := addMacroTo r d.macros
  ({ d with macros }, changed)

/-- Replaces the record with the name of `r`, or appends `r`. -/
def addMethodTo (r : MethodRecord) : List MethodRecord → List MethodRecord
  | [] => [r]
  | x :: xs => if x.name = r.name then r :: xs else x :: addMethodTo r xs

/-- Records a method. -/
def addMethod (d : Descriptor) (r : MethodRecord) : Descriptor :=
  { d with methods := addMethodTo r d.methods }

/-! ### Files -/

/-- A descriptor in JSON. -/
def toJson (d : Descriptor) : Json :=
  .obj [("name", .str d.name), ("superclass", Json.ofOption d.superclass),
    ("methods", .arr (d.methods.map fun m => .obj
      [("name", .str m.name), ("params", .arr (m.params.map .str)),
       ("returns", .str m.returns)])),
    ("macros", .arr (d.macros.map fun m => .obj
      [("name", .str m.name), ("signature", .str m.signature.encode), ("unit", .str m.unit)]))]

/-- The text of a descriptor file. -/
def encode (d : Descriptor) : String := d.toJson.pretty

/-- Reads the record of a method. -/
def readMethod (j : Json) : Option MethodRecord := do
  match ← Json.slots ["name", "params", "returns"] j with
  | [name, params, returns] =>
    return ⟨← Json.asString (← name.required),
      ← (← Json.asList (← params.required)).mapM Json.asString,
      ← Json.asString (← returns.required)⟩
  | _ => none

/-- Reads the record of a macro. -/
def readMacro (j : Json) : Option MacroRecord := do
  match ← Json.slots ["name", "signature", "unit"] j with
  | [name, signature, unit] =>
    return ⟨← Json.asString (← name.required),
      ← Signature.decode? (← Json.asString (← signature.required)),
      ← Json.asString (← unit.required)⟩
  | _ => none

/-- Reads a descriptor.  Everything but the name may be absent. -/
def ofJson (j : Json) : Option Descriptor := do
  match ← Json.slots ["name", "superclass", "methods", "macros"] j with
  | [name, superclass, methods, macros] =>
    return {
      name := ← Json.asString (← name.required)
      superclass := ← Json.asOptionalString (superclass.withDefault .null)
      methods := ← (← Json.asList (methods.withDefault (.arr []))).mapM readMethod
      macros := ← (← Json.asList (macros.withDefault (.arr []))).mapM readMacro }
  | _ => none

/-- Reads the text of a descriptor file. -/
def decode? (text : String) : Option Descriptor := (Json.parse text).bind ofJson

/-! ### Records after a change -/

/-- After a change there is a record that names the macro and its unit. -/
theorem mem_addMacroTo (r : MacroRecord) (xs : List MacroRecord) :
    r ∈ (addMacroTo r xs).1 := by
  induction xs with
  | nil => simp [addMacroTo]
  | cons x xs ih =>
    simp only [addMacroTo]
    split
    · rename_i h
      simp [h.1, h.2]
    · simp [ih]

/-- After a change there is the record of the method. -/
theorem mem_addMethodTo (r : MethodRecord) (xs : List MethodRecord) :
    r ∈ addMethodTo r xs := by
  induction xs with
  | nil => simp [addMethodTo]
  | cons x xs ih =>
    simp only [addMethodTo]
    split <;> simp [ih]

end Descriptor

end Quasiquote
