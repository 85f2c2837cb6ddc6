import Quasiquote.Diagnostic
import Quasiquote.Text.Pieces

namespace Quasiquote

/-!
# Files — a tree of files and directories

Units, descriptors, settings and sources are files below one directory.  A tree
assigns to every path nothing, a directory, or the text of a file.

* `Path` — the names from the top directory down, with `Path.ofText` and
  `Path.toText` for the written form;
* `Files` — a tree;
* `Files.text?`, `Files.makeDirectory`, `Files.write`, `Files.remove` — questions
  and changes;
* `Files.below` — the files under a path, names in order at every level.
-/

/-- The names that lead from the top directory to a file or directory. -/
abbrev Path := List String

namespace Path

/-- One directory up.  Above the top directory are trees of their own. -/
def up (p : Path) : Path :=
  match p.getLast? with
  | none | some ".." => p ++ [".."]
  | some "/" => p
  | some _ => p.dropLast

/-- One name further.  A single point stays, and two points go up. -/
def step (p : Path) (name : String) : Path :=
  if name = "" || name = "." then p else if name = ".." then p.up else p ++ [name]

/-- The path of a written form.  What begins with a slash is another tree. -/
def ofText (text : String) : Path :=
  let start := if text.toList.head? = some '/' then ["/"] else []
  ((Pieces.split '/' text.toList).map String.ofList).foldl step start

/-- Whether a path comes before another one or is the same, names compared from the
    top directory down. -/
def precedes : Path → Path → Bool
  | [], _ => true
  | _ :: _, [] => false
  | a :: p, b :: q => if a = b then precedes p q else a < b

/-- The written form of a path. -/
def toText : Path → String
  | [] => "."
  | "/" :: names => "/" ++ "/".intercalate names
  | names => "/".intercalate names

/-- The written form of `name` inside the directory written as `root`. -/
def join (root name : String) : String :=
  if root = "" || name.toList.head? = some '/' then name
  else if root.toList.getLast? = some '/' then root ++ name
  else root ++ "/" ++ name

/-- The written form of the directory around what is written as `text`. -/
def around (text : String) : String :=
  let front := (text.toList.reverse.dropWhile (· == '/')).dropWhile (· != '/')
  let kept := front.dropWhile (· == '/')
  if kept.isEmpty && !front.isEmpty then "/" else String.ofList kept.reverse

end Path

/-- What stands at a path. -/
inductive FileEntry where
  | directory
  | text (content : String)
deriving DecidableEq, Repr

/-- Why an operation on files fails. -/
inductive FileError where
  | missing
  | occupied
  | underFile
  | isDirectory
deriving DecidableEq, Repr

/-- The sentence that reports a failure. -/
def FileError.message : FileError → String
  | .missing => "No such file or directory (os error 2)"
  | .occupied => "File exists (os error 17)"
  | .underFile => "Not a directory (os error 20)"
  | .isDirectory => "Is a directory (os error 21)"

/-- A tree of files and directories, without the top directory. -/
structure Files where
  entries : List (Path × FileEntry) := []

namespace Files

/-- The entry of a path among entries. -/
def find (p : Path) : List (Path × FileEntry) → Option FileEntry
  | [] => none
  | (q, e) :: rest => if p = q then some e else find p rest

/-- Entries with one of them replaced, or with one more. -/
def put (p : Path) (e : FileEntry) : List (Path × FileEntry) → List (Path × FileEntry)
  | [] => [(p, e)]
  | (q, e') :: rest => if p = q then (p, e) :: rest else (q, e') :: put p e rest

/-- What stands at a path, if anything. -/
def get? (fs : Files) (p : Path) : Option FileEntry :=
  if p = [] || p = ["/"] then some .directory else find p fs.entries

/-- The tree with an entry at a path. -/
def set (fs : Files) (p : Path) (e : FileEntry) : Files := ⟨put p e fs.entries⟩

/-- The text of the file at a path. -/
def text? (fs : Files) (p : Path) : Option String :=
  match fs.get? p with
  | some (.text t) => some t
  | _ => none

/-- Whether there is a file at a path. -/
def isFile (fs : Files) (p : Path) : Bool := (fs.text? p).isSome

/-- Whether there is a directory at a path. -/
def isDirectory (fs : Files) (p : Path) : Bool := fs.get? p == some .directory

/-- Makes the directories `names` inside each other, below a directory. -/
def makeBelow (fs : Files) (above : Path) : List String → Except FileError Files
  | [] => .ok fs
  | n :: names =>
    match fs.get? (above ++ [n]) with
    | some .directory => makeBelow fs (above ++ [n]) names
    | some (.text _) => .error (if names.isEmpty then .occupied else .underFile)
    | none => makeBelow (fs.set (above ++ [n]) .directory) (above ++ [n]) names

/-- Makes a directory and those around it, as far as they are missing. -/
def makeDirectory (fs : Files) (p : Path) : Except FileError Files := makeBelow fs [] p

/-- Whether a file stands on the way to a path. -/
def blocked (fs : Files) (p : Path) : Bool :=
  (List.range p.length).any fun n => fs.isFile (p.take n)

/-- Writes a file into a directory that exists. -/
def write (fs : Files) (p : Path) (text : String) : Except FileError Files :=
  if fs.isDirectory p then .error .isDirectory
  else if fs.isDirectory p.dropLast then .ok (fs.set p (.text text))
  else .error (if fs.blocked p then .underFile else .missing)

/-- Writes a file, making the directory around it. -/
def writeDeep (fs : Files) (p : Path) (text : String) : Except FileError Files := do
  (← fs.makeDirectory p.dropLast).write p text

/-- Removes a file. -/
def remove (fs : Files) (p : Path) : Files :=
  ⟨fs.entries.filter fun e => e.1 != p⟩

/-- All files. -/
def all (fs : Files) : List (Path × String) :=
  fs.entries.filterMap fun (p, e) => match e with
    | .text t => some (p, t)
    | .directory => none

/-- The files below a directory, the names at each level in order. -/
def below (fs : Files) (root : Path) : List (Path × String) :=
  (fs.all.filter fun e => root.isPrefixOf e.1).mergeSort fun a b => a.1.precedes b.1

/-! ### Look-up after a change -/

theorem find_put (p q : Path) (e : FileEntry) (es : List (Path × FileEntry)) :
    find q (put p e es) = if q = p then some e else find q es := by
  induction es with
  | nil => simp [put, find]
  | cons x es ih =>
    obtain ⟨p', e'⟩ := x
    by_cases h : p = p'
    · subst h
      by_cases hq : q = p <;> simp [put, find, hq]
    · by_cases hq : q = p'
      · subst hq
        simp [put, find, h, Ne.symm h]
      · simp [put, find, h, hq, ih]

theorem get?_set (fs : Files) {p : Path} (q : Path) (e : FileEntry) (hp : p ≠ [])
    (hp' : p ≠ ["/"]) : (fs.set p e).get? q = if q = p then some e else fs.get? q := by
  by_cases hq : q = p
  · subst hq
    simp [get?, set, find_put, hp, hp']
  · simp [get?, set, find_put, hq]

end Files

/-- Computations that change files and may fail. -/
abbrev FilesM := ExceptT Diagnostic (StateM Files)

namespace FilesM

/-- Makes a change to the files, reporting a failure under a written path. -/
def change (text : String) (f : Files → Except FileError Files) : FilesM Unit :=
  ExceptT.mk fun fs => match f fs with
    | .ok fs' => (.ok (), fs')
    | .error e => (.error (.ofFile text e.message), fs)

/-- Makes a directory, given in its written form. -/
def makeDirectory (text : String) : FilesM Unit :=
  change text fun fs => fs.makeDirectory (Path.ofText text)

/-- Writes a file, given in its written form. -/
def write (text content : String) : FilesM Unit :=
  change text fun fs => fs.write (Path.ofText text) content

end FilesM

end Quasiquote
