import Quasiquote.Digest
import Quasiquote.Json.Reader
import Quasiquote.Json.Record
import Quasiquote.Node.Basic
import Quasiquote.Word

namespace Quasiquote

/-!
# Units — compiled classes and their files

A class is compiled to an image: its name and the bodies of its methods.  The
image is stored together with its checksum, and a file is only accepted if the
checksum is that of the image in it.

* `UnitImage`, `Artifact` — an image, and an image as it is stored;
* `LoadedUnit` — an image that was accepted;
* `Artifact.sealed`, `Artifact.encode`, `Artifact.decode` — from an image to the
  text of its file and back.
-/

/-- A compiled method. -/
structure MethodImage where
  name : String
  params : List String
  body : Node

/-- A compiled class. -/
structure UnitImage where
  name : String
  superclass : Option String
  methods : List MethodImage

namespace UnitImage

/-- The method of a name. -/
def method? (u : UnitImage) (name : String) : Option MethodImage :=
  u.methods.find? (·.name == name)

end UnitImage

/-- A unit that is ready to run. -/
structure LoadedUnit where
  checksum : String
  image : UnitImage

namespace LoadedUnit

/-- The name of a unit. -/
def name (u : LoadedUnit) : String := u.image.name

/-- A unit that has a name and nothing else. -/
def named (name : String) : LoadedUnit := ⟨"", ⟨name, none, []⟩⟩

end LoadedUnit

/-- An image as it is stored. -/
structure Artifact where
  format : String
  checksum : String
  image : UnitImage

/-- What makes a stored unit unacceptable. -/
inductive ArtifactError where
  | malformed (reason : String)
  | unsupportedFormat (format : String)
  | checksumMismatch (recorded computed : String)
  | conflict (name : String)
  | nameMismatch (expected found : String)
deriving DecidableEq, Repr

/-- The sentence that reports an unacceptable unit. -/
def ArtifactError.message : ArtifactError → String
  | .malformed reason => "artifact is not valid: " ++ reason
  | .unsupportedFormat format => "unsupported artifact format '" ++ format ++ "'"
  | .checksumMismatch recorded computed =>
    "checksum mismatch: recorded " ++ recorded ++ ", computed " ++ computed
  | .conflict name => "a different unit named '" ++ name ++ "' is already loaded"
  | .nameMismatch expected found =>
    "artifact for '" ++ expected ++ "' contains unit '" ++ found ++ "'"

namespace Image

/-! ### Writing -/

/-- A span in JSON. -/
def ofSpan (s : Span) : Json := .obj [("start", .int s.start), ("end", .int s.stop)]

/-- A choice with what belongs to it. -/
def tagged (name : String) (v : Json) : Json := .obj [(name, v)]

/-- A choice with parts. -/
def record (name : String) (fields : List (String × Json)) : Json := tagged name (.obj fields)

mutual

/-- A node in JSON. -/
def ofNode : Node → Json
  | ⟨s, f⟩ => .obj [("kind", ofForm f), ("span", ofSpan s)]

/-- A form in JSON. -/
def ofForm : Form → Json
  | .int i => tagged "Fixnum" (.int i)
  | .float x => tagged "Float" (.float x)
  | .str s => tagged "Str" (.str s)
  | .bool b => tagged "Bool" (.bool b)
  | .nil => .str "Nil"
  | .self => .str "SelfRef"
  | .ident name => tagged "Local" (.str name)
  | .assign name v => record "LocalAssign" [("name", .str name), ("value", ofNode v)]
  | .field name => tagged "Field" (.str name)
  | .fieldAssign name v => record "FieldAssign" [("name", .str name), ("value", ofNode v)]
  | .constant name => tagged "Constant" (.str name)
  | .call t name args b => record "Call"
    [("target", ofNode t), ("name", .str name), ("args", .arr (ofNodes args)),
     ("block", ofOptional b)]
  | .invoke name args b => record "FunctionalCall"
    [("name", .str name), ("args", .arr (ofNodes args)), ("block", ofOptional b)]
  | .cond t y n => record "If"
    [("condition", ofNode t), ("then_branch", ofNode y), ("else_branch", ofOptional n)]
  | .body items => tagged "Body" (.arr (ofNodes items))
  | .block params b brace => record "Block"
    [("params", .arr (params.map .str)), ("body", ofNode b), ("brace", .bool brace)]
  | .blockArgument name optional => record "BlockArgument"
    [("name", .str name), ("optional", .bool optional)]
  | .classDef name superclass b => record "ClassDefinition"
    [("name", .str name), ("superclass", Json.ofOption superclass), ("body", ofNode b)]
  | .methodDef name params returns b => record "MethodDefinition"
    [("name", .str name), ("params", .arr (ofParams params)),
     ("returns", Json.ofOption returns), ("body", ofNode b)]
  | .macroDef name args b id => record "MacroDefinition"
    [("spec", .obj [("name", .str name), ("arguments", .arr (ofArgs args)), ("body", ofNode b)]),
     ("id", match id with | some i => .int i | none => .null)]
  | .quote b => tagged "Quote" (ofNode b)
  | .unquote b => tagged "Unquote" (ofNode b)
  | .noop => .str "Noop"
  | .error message => tagged "Error" (.str message)

/-- Several nodes in JSON. -/
def ofNodes : List Node → List Json
  | [] => []
  | n :: ns => ofNode n :: ofNodes ns

/-- A node that may be absent. -/
def ofOptional : Option Node → Json
  | none => .null
  | some n => ofNode n

/-- Parameters in JSON. -/
def ofParams : List Parameter → List Json
  | [] => []
  | ⟨name, type, default, block⟩ :: ps =>
    .obj [("name", .str name), ("type_name", Json.ofOption type),
      ("default", ofOptional default), ("block", .bool block)] :: ofParams ps

/-- Macro arguments in JSON. -/
def ofArgs : List Argument → List Json
  | [] => []
  | .required name :: args => tagged "Required" (.str name) :: ofArgs args
  | .optional name d :: args =>
    tagged "Optional" (.arr [.str name, ofNode d]) :: ofArgs args
  | .block name optional :: args =>
    tagged "Block" (.arr [.str name, .bool optional]) :: ofArgs args

end

/-- A method in JSON. -/
def ofMethod (m : MethodImage) : Json :=
  .obj [("name", .str m.name), ("params", .arr (m.params.map .str)), ("body", ofNode m.body)]

/-- An image in JSON. -/
def ofImage (u : UnitImage) : Json :=
  .obj [("name", .str u.name), ("superclass", Json.ofOption u.superclass),
    ("methods", .arr (u.methods.map ofMethod))]

/-! ### Reading

Every array or object that is entered takes one level of nesting, and none is
entered when no level is left. -/

/-- Enters a record that takes one of `depth` levels. -/
def enter (depth : Nat) (names : List String) (j : Json) : Option (Nat × List Json.Slot) :=
  match depth with
  | 0 => none
  | d + 1 => (Json.slots names j).map fun slots => (d, slots)

/-- Enters a list that takes one of `depth` levels. -/
def enterList (depth : Nat) (j : Json) : Option (Nat × List Json) :=
  match depth with
  | 0 => none
  | d + 1 => (Json.asList j).map fun items => (d, items)

/-- Reads a list of strings. -/
def readStrings (depth : Nat) (j : Json) : Option (List String) := do
  let (_, items) ← enterList depth j
  items.mapM Json.asString

/-- Reads a span. -/
def readSpan (depth : Nat) (j : Json) : Option Span := do
  match ← enter depth ["start", "end"] j with
  | (_, [start, stop]) =>
    return ⟨← Json.asOffset (← start.required), ← Json.asOffset (← stop.required)⟩
  | _ => none

/-- Reads a string from a part that has to be there. -/
def readString (slot : Json.Slot) : Option String := do Json.asString (← slot.required)

/-- Reads a truth value from a part that has to be there. -/
def readBool (slot : Json.Slot) : Option Bool := do Json.asBool (← slot.required)

/-- Reads a value that may be `null`. -/
def readOption {α : Type} (read : Json → Option α) : Json → Option (Option α)
  | .null => some none
  | j => (read j).map some

/-- Reads a string from a part that may be absent. -/
def readOptionalString (slot : Json.Slot) : Option (Option String) := do
  readOption Json.asString (← slot.optional)

mutual

/-- Reads a node, at most `depth` levels deep. -/
def readNode : Nat → Json → Option Node
  | 0, _ => none
  | d + 1, j => do
    match ← Json.slots ["kind", "span"] j with
    | [kind, span] =>
      let f ← readForm d (← kind.required)
      return ⟨← readSpan d (← span.required), f⟩
    | _ => none

/-- Reads a form.  One that is more than a name takes a level for the name, and
    another one for its parts. -/
def readForm : Nat → Json → Option Form
  | 0, j => match j with
    | .str "Nil" => some .nil
    | .str "SelfRef" => some .self
    | .str "Noop" => some .noop
    | _ => none
  | d + 1, j => do
    let (name, content) ← Json.variant j
    match name, content with
    | "Nil", none | "Nil", some .null => return .nil
    | "SelfRef", none | "SelfRef", some .null => return .self
    | "Noop", none | "Noop", some .null => return .noop
    | "Fixnum", some v => return .int (← Json.asWord v)
    | "Float", some v => return .float (← Json.asFloat v)
    | "Str", some v => return .str (← Json.asString v)
    | "Bool", some v => return .bool (← Json.asBool v)
    | "Local", some v => return .ident (← Json.asString v)
    | "Field", some v => return .field (← Json.asString v)
    | "Constant", some v => return .constant (← Json.asString v)
    | "Error", some v => return .error (← Json.asString v)
    | "Quote", some v => return .quote (← readNode d v)
    | "Unquote", some v => return .unquote (← readNode d v)
    | "Body", some v => return .body (← readNodes d v)
    | _, some v => readParts d name v
    | _, _ => none

/-- Reads the parts of a form of a given name. -/
def readParts : Nat → String → Json → Option Form
  | 0, _, _ => none
  | d + 1, "LocalAssign", v => do
    match ← Json.slots ["name", "value"] v with
    | [name, value] => return .assign (← readString name) (← readNode d (← value.required))
    | _ => none
  | d + 1, "FieldAssign", v => do
    match ← Json.slots ["name", "value"] v with
    | [name, value] => return .fieldAssign (← readString name) (← readNode d (← value.required))
    | _ => none
  | d + 1, "Call", v => do
    match ← Json.slots ["target", "name", "args", "block"] v with
    | [target, name, args, block] =>
      return .call (← readNode d (← target.required)) (← readString name)
        (← readNodes d (← args.required)) (← readOption (readNode d) (← block.optional))
    | _ => none
  | d + 1, "FunctionalCall", v => do
    match ← Json.slots ["name", "args", "block"] v with
    | [name, args, block] =>
      return .invoke (← readString name) (← readNodes d (← args.required))
        (← readOption (readNode d) (← block.optional))
    | _ => none
  | d + 1, "If", v => do
    match ← Json.slots ["condition", "then_branch", "else_branch"] v with
    | [test, yes, no] =>
      return .cond (← readNode d (← test.required)) (← readNode d (← yes.required))
        (← readOption (readNode d) (← no.optional))
    | _ => none
  | d + 1, "Block", v => do
    match ← Json.slots ["params", "body", "brace"] v with
    | [params, body, brace] =>
      return .block (← readStrings d (← params.required)) (← readNode d (← body.required))
        (← readBool brace)
    | _ => none
  | _ + 1, "BlockArgument", v => do
    match ← Json.slots ["name", "optional"] v with
    | [name, optional] => return .blockArgument (← readString name) (← readBool optional)
    | _ => none
  | d + 1, "ClassDefinition", v => do
    match ← Json.slots ["name", "superclass", "body"] v with
    | [name, superclass, body] =>
      return .classDef (← readString name) (← readOptionalString superclass)
        (← readNode d (← body.required))
    | _ => none
  | d + 1, "MethodDefinition", v => do
    match ← Json.slots ["name", "params", "returns", "body"] v with
    | [name, params, returns, body] =>
      return .methodDef (← readString name) (← readParams d (← params.required))
        (← readOptionalString returns) (← readNode d (← body.required))
    | _ => none
  | d + 1, "MacroDefinition", v => do
    match ← Json.slots ["spec", "id"] v with
    | [spec, id] =>
      let m ← readSpec d (← spec.required)
      return .macroDef m.name m.args m.body (← readOption Json.asOffset (← id.optional))
    | _ => none
  | _, _, _ => none

/-- Reads the name, arguments and body of a macro. -/
def readSpec : Nat → Json → Option MacroSpec
  | 0, _ => none
  | d + 1, v => do
    match ← Json.slots ["name", "arguments", "body"] v with
    | [name, args, body] =>
      return ⟨← readString name, ← readArgs d (← args.required), ← readNode d (← body.required)⟩
    | _ => none

/-- Reads a list of nodes. -/
def readNodes : Nat → Json → Option (List Node)
  | 0, _ => none
  | d + 1, j => do (← Json.asList j).mapM (readNode d)

/-- Reads a list of parameters. -/
def readParams : Nat → Json → Option (List Parameter)
  | 0, _ => none
  | d + 1, j => do (← Json.asList j).mapM (readParam d)

/-- Reads a parameter. -/
def readParam : Nat → Json → Option Parameter
  | 0, _ => none
  | d + 1, j => do
    match ← Json.slots ["name", "type_name", "default", "block"] j with
    | [name, type, default, block] =>
      return ⟨← readString name, ← readOptionalString type,
        ← readOption (readNode d) (← default.optional), ← readBool block⟩
    | _ => none

/-- Reads a list of macro arguments. -/
def readArgs : Nat → Json → Option (List Argument)
  | 0, _ => none
  | d + 1, j => do (← Json.asList j).mapM (readArg d)

/-- Reads a macro argument. -/
def readArg : Nat → Json → Option Argument
  | 0, _ => none
  | d + 1, j => do
    match ← Json.variant j with
    | ("Required", some v) => return .required (← Json.asString v)
    | ("Optional", some v) => readOptionalArg d v
    | ("Block", some (.arr [name, optional])) =>
      if d = 0 then none else return .block (← Json.asString name) (← Json.asBool optional)
    | _ => none

/-- Reads the name and the default of a macro argument. -/
def readOptionalArg : Nat → Json → Option Argument
  | 0, _ => none
  | d + 1, j => match j with
    | .arr [name, default] => do return .optional (← Json.asString name) (← readNode d default)
    | _ => none

end

/-- Reads a method. -/
def readMethod (depth : Nat) (j : Json) : Option MethodImage := do
  match ← enter depth ["name", "params", "body"] j with
  | (d, [name, params, body]) =>
    return ⟨← readString name, ← readStrings d (← params.required),
      ← readNode d (← body.required)⟩
  | _ => none

/-- Reads an image. -/
def readImage (depth : Nat) (j : Json) : Option UnitImage := do
  match ← enter depth ["name", "superclass", "methods"] j with
  | (d, [name, superclass, methods]) =>
    let (d, methods) ← enterList d (← methods.required)
    return ⟨← readString name, ← readOptionalString superclass,
      ← methods.mapM (readMethod d)⟩
  | _ => none

end Image

namespace Artifact

/-- The format of the files that this library writes and accepts. -/
def currentFormat : String := "kiln-unit/1"

/-- How many arrays and objects of a file may stand inside each other. -/
def nesting : Nat := 127

/-- The checksum of an image. -/
def digest (u : UnitImage) : String := Digest.ofText (Image.ofImage u).compact

/-- An image with its checksum. -/
def sealed (u : UnitImage) : Artifact := ⟨currentFormat, digest u, u⟩

/-- The text of a file. -/
def encode (a : Artifact) : String :=
  (Json.obj [("format", .str a.format), ("checksum", .str a.checksum),
    ("image", Image.ofImage a.image)]).pretty

/-- Reads the parts of a file. -/
def ofJson (j : Json) : Option Artifact := do
  match ← Image.enter nesting ["format", "checksum", "image"] j with
  | (d, [format, checksum, image]) =>
    return ⟨← Image.readString format, ← Image.readString checksum,
      ← Image.readImage d (← image.required)⟩
  | _ => none

/-- Reads a file without looking at its checksum. -/
def read (text : String) : Except ArtifactError Artifact :=
  match (Json.parse text).bind ofJson with
  | some a => .ok a
  | none => .error (.malformed "not a unit")

/-- Accepts an artifact of the current format whose checksum is that of its
    image. -/
def verify (a : Artifact) : Except ArtifactError Unit :=
  if a.format ≠ currentFormat then .error (.unsupportedFormat a.format)
  else if digest a.image ≠ a.checksum then
    .error (.checksumMismatch a.checksum (digest a.image))
  else .ok ()

/-- Reads and verifies a file. -/
def decode (text : String) : Except ArtifactError Artifact := do
  let a ← read text
  a.verify
  return a

/-- An artifact is accepted exactly if it is of the current format and its
    checksum is that of its image. -/
theorem verify_eq_ok_iff (a : Artifact) :
    a.verify = .ok () ↔ a.format = currentFormat ∧ digest a.image = a.checksum := by
  unfold verify
  by_cases hf : a.format = currentFormat <;> by_cases hc : digest a.image = a.checksum <;>
    simp [hf, hc]

/-- What is sealed is accepted. -/
theorem verify_sealed (u : UnitImage) : (sealed u).verify = .ok () :=
  (verify_eq_ok_iff _).2 ⟨rfl, rfl⟩

end Artifact

end Quasiquote
