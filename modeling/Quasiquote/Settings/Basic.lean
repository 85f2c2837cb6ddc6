import Quasiquote.Diagnostic
import Quasiquote.Files
import Quasiquote.Text.Blank
import Quasiquote.Text.Pieces
import Quasiquote.Yaml.Document

namespace Quasiquote

/-!
# Settings — how a session is set up

Every setting has a default, so an empty file is a valid one.

* `Settings` — the settings of a session;
* `Settings.ofText` — the settings in the text of a file;
* `Settings.flaw?` — what makes settings unacceptable;
* `Settings.load`, `Settings.discover` — the settings in a file of a given path, or
  in the file with the usual name.
-/

/-- The settings of a session. -/
structure Settings where
  /-- The directory that units and descriptors are written to, if any are. -/
  destination : Option String := none
  /-- The directories in which units and descriptors of earlier sessions are. -/
  classpath : List String := []
  /-- The package of the units that expand macros. -/
  package : String := "kiln.macros"
  /-- The type that the code of scripts belongs to. -/
  scriptType : String := "Script"
  verbose : Bool := false
deriving DecidableEq, Repr

namespace Settings

/-! ### Acceptable settings -/

/-- Whether a character may begin an identifier. -/
def startsIdentifier (c : Char) : Bool := c.isAlpha || c == '_'

/-- Whether a text is an identifier. -/
def isIdentifier : List Char → Bool
  | [] => false
  | c :: cs => startsIdentifier c && cs.all fun d => d.isAlphanum || d == '_'

/-- Whether a text is a sequence of identifiers between points. -/
def isPackage (text : List Char) : Bool := (Pieces.split '.' text).all isIdentifier

/-- What is wrong with settings, if anything. -/
def flaw? (s : Settings) : Option String :=
  if !isPackage s.package.toList then some ("invalid package name '" ++ s.package ++ "'")
  else if !isIdentifier s.scriptType.toList then
    some ("invalid script type name '" ++ s.scriptType ++ "'")
  else none

/-- Settings without a flaw name a package and a type. -/
theorem flaw?_eq_none_iff (s : Settings) :
    s.flaw? = none ↔
      isPackage s.package.toList = true ∧ isIdentifier s.scriptType.toList = true := by
  unfold flaw?
  cases isPackage s.package.toList <;> cases isIdentifier s.scriptType.toList <;> simp

/-! ### Reading -/

/-- The tag of truth values. -/
def truthTag : String := "tag:yaml.org,2002:bool"

/-- The tag of absent values. -/
def absentTag : String := "tag:yaml.org,2002:null"

/-- The truth value of a scalar.  It is plain, or a block with the tag of truth values. -/
def truth? (s : Yaml.Scalar) : Option Bool :=
  if s.style = .plain || (s.style = .literal && s.tag = some truthTag) then
    if ["true", "True", "TRUE"].contains s.text then some true
    else if ["false", "False", "FALSE"].contains s.text then some false
    else none
  else none

/-- Whether a text stands for an absent value. -/
def isNull (text : String) : Bool := ["~", "null", "Null", "NULL"].contains text

/-- The text of a scalar that may be absent.  Only a plain scalar may, and if it has a tag,
    then only with the tag of absent values, which fits no other text. -/
def optional? (s : Yaml.Scalar) : Option (Option String) :=
  if s.style ≠ .plain then some (some s.text)
  else match s.tag with
    | none => some (if s.text.isEmpty || isNull s.text then none else some s.text)
    | some t =>
      if t ≠ absentTag then some (some s.text)
      else if isNull s.text then some none
      else none

/-- The texts of a list.  Where nothing is written, it is empty. -/
def texts? : Yaml.Value Yaml.Scalar → Option (List String)
  | .many items => some (items.map (·.text))
  | .one s => if s.style = .plain && s.text.isEmpty then some [] else none

/-- Settings with one of them replaced. -/
def assign (s : Settings) : String → Yaml.Value Yaml.Scalar → Option Settings
  | "destination", .one v => (optional? v).map fun t => { s with destination := t }
  | "classpath", v => (texts? v).map fun ts => { s with classpath := ts }
  | "package", .one v => some { s with package := v.text }
  | "script_type", .one v => some { s with scriptType := v.text }
  | "verbose", .one v => (truth? v).map fun b => { s with verbose := b }
  | _, _ => none

/-- Settings under their names.  No setting may be given twice. -/
def ofEntries (es : List (String × Yaml.Value Yaml.Scalar)) : Option Settings :=
  if (es.map Prod.fst).eraseDups.length = es.length then
    es.foldlM (fun s e => s.assign e.1 e.2) {}
  else none

/-- The settings in the text of a file. -/
def ofText (text : String) : Except Diagnostic Settings :=
  if text.toList.all Blank.isBlank then .ok {}
  else match (Yaml.read text).bind ofEntries with
    | none => .error (.ofConfiguration "these are no settings")
    | some s => match s.flaw? with
      | some reason => .error (.ofConfiguration reason)
      | none => .ok s

/-! ### Files -/

/-- The usual name of a settings file. -/
def fileName : String := "kiln.yaml"

/-- The settings in a file, given by its written path. -/
def load (fs : Files) (path : String) : Except Diagnostic Settings :=
  match fs.get? (Path.ofText path) with
  | some (.text text) => (ofText text).mapError (·.withHelp ("in " ++ path))
  | some .directory => .error (.ofFile path FileError.isDirectory.message)
  | none => .error (.ofFile path FileError.missing.message)

/-- The settings in the file of the usual name in a directory, if there is one. -/
def discover (fs : Files) (directory : String) : Except Diagnostic (Option Settings) :=
  let path := Path.join directory fileName
  if fs.isFile (Path.ofText path) then (load fs path).map some else .ok none

end Settings

end Quasiquote
