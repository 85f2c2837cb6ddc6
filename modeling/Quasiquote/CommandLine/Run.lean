import Quasiquote.CommandLine.Help
import Quasiquote.Node.Outline
import Quasiquote.Session.Compile
import Quasiquote.Text.Diff

namespace Quasiquote

/-!
# Commands

A command reads sources, compiles them in a session of its own, and prints what it
was asked for.  It never ends without an exit status.

* `Notice`, `Outcome` — what is said besides the output, and how a command ends;
* `CommandLine.run` — runs a command line in a world.
-/

namespace CommandLine

/-- What a command says besides its output. -/
inductive Notice where
  | diagnostic (d : Diagnostic)
  /-- How many diagnostics there are. -/
  | summary (text : String)
  | message (text : String)

/-- A notice in words. -/
def Notice.text : Notice → String
  | .diagnostic d =>
    d.code ++ " in " ++ d.source ++ " at " ++ toString d.span.start ++ ": " ++ d.message ++ "\n" ++
      (match d.help with
        | some help => "  " ++ help ++ "\n"
        | none => "")
  | .summary text | .message text => text ++ "\n"

/-- How a command ends. -/
structure Outcome where
  status : Nat
  notices : List Notice := []

namespace Outcome

/-- The end of a command that did what it was asked for. -/
def success : Outcome := ⟨0, []⟩

/-- The end of a command that failed. -/
def failure (d : Diagnostic) : Outcome := ⟨1, [.diagnostic d]⟩

/-- The end of a command whose macros need each other without end. -/
def exhausted : Outcome := ⟨1, [.message "builds of macros nest too deep"]⟩

/-- Two ends taken together; the worse status counts. -/
def both (a b : Outcome) : Outcome := ⟨max a.status b.status, a.notices ++ b.notices⟩

end Outcome

/-! ### Output -/

/-- Prints text. -/
def emit (w : World) (text : String) : World := { w with printed := w.printed ++ text }

/-- One expansion as a diff from the call to what replaced it. -/
def stepText (i : Nat) (e : ExpansionStep) : String :=
  "--- Step " ++ toString (i + 1) ++ ": " ++ String.ofList (List.replicate (2 * e.depth) ' ') ++
    e.name ++ " (" ++ e.unit ++ ") ---\n" ++ Diff.render e.call e.expansion ++ "\n"

/-- Every expansion as a diff. -/
def traceText (steps : List ExpansionStep) : String :=
  if steps.isEmpty then "(no compiled macro calls)\n"
  else "".intercalate (steps.zipIdx.map fun (e, i) => stepText i e)

/-- One entry of a macro table. -/
def entryText (e : MacroEntry) : String :=
  "  " ++ e.name ++ e.signature.encode ++ " -> " ++ e.unit.name ++
    (match e.kind with
      | .full => ""
      | .blockless => " (blockless overload)") ++ "\n"

/-- The macros of every type that is not built in. -/
def macrosText (types : TypeRegistry) : String :=
  let owners := types.types.values.filter fun t => !t.builtin && t.macros.size > 0
  if owners.isEmpty then "  No macros found.\n"
  else "".intercalate (owners.map fun t =>
    t.name ++ "\n" ++ "".intercalate (t.macros.entries.map entryText))

/-- The paths of written files. -/
def writtenText (paths : List String) : String :=
  "".intercalate (paths.map fun p => "  wrote " ++ p ++ "\n")

/-- What there is to say about a compilation. -/
def report (c : Compilation) : Outcome :=
  let warnings := if c.warnings.isEmpty then [] else
    .summary (toString c.warnings.length ++ " warning(s)") :: c.warnings.map .diagnostic
  if c.errors.isEmpty then ⟨0, warnings⟩
  else ⟨1, warnings ++ c.errors.map .diagnostic ++
    [.summary (toString c.errors.length ++ " error(s)")]⟩

/-! ### Sources and sessions -/

/-- The settings of a command: those of a file, and those of the command line. -/
def settings (fs : Files) (flags : Flags) (out : Option String) : Except Diagnostic Settings := do
  let s ← match flags.config with
    | some path => Settings.load fs path
    | none => do pure ((← Settings.discover fs ".").getD {})
  return { s with
    classpath := s.classpath ++ flags.classpath
    package := flags.package.getD s.package
    destination := out <|> s.destination
    verbose := s.verbose || flags.verbose }

/-- The text of a source. -/
def readSource (fs : Files) (path : String) : Except Diagnostic String :=
  match fs.get? (Path.ofText path) with
  | some (.text t) => .ok t
  | some .directory => .error (.ofFile path FileError.isDirectory.message)
  | none => .error (.ofFile path FileError.missing.message)

/-- Whether a name is that of a source. -/
def isSource (name : String) : Bool :=
  let tail := ".kiln".toList.reverse
  let back := name.toList.reverse
  tail.isPrefixOf back && tail.length < back.length

/-- The written path of a file below a directory. -/
def writtenPath (root : String) (below : Path) : String := below.foldl Path.join root

/-- The sources at a path: a file itself, or all sources in a directory. -/
def sourceFiles (fs : Files) (path : String) : Except Diagnostic (List String) :=
  let p := Path.ofText path
  match fs.get? p with
  | some (.text _) => .ok [path]
  | none => .error (.ofFile path FileError.missing.message)
  | some .directory =>
    .ok (((fs.below p).filter fun f => (f.1.getLast?.map isSource).getD false).map fun f =>
      writtenPath path (f.1.drop p.length))

/-- Compiles a source file and goes on with the result. -/
def withCompilation (k : Work) (path : String)
    (next : Work → Compilation → World × Outcome) : World × Outcome :=
  match readSource k.world.files path with
  | .error d => (k.world, .failure d)
  | .ok text => match k.compile path text with
    | none => (k.world, .exhausted)
    | some (.error d, k) => (k.world, .failure d)
    | some (.ok c, k) => next k c

/-- Compiles several source files, one after the other. -/
def compileAll (k : Work) (so : Outcome) (last : Work → Outcome → World × Outcome) :
    List String → World × Outcome
  | [] => last k so
  | path :: paths =>
    match readSource k.world.files path with
    | .error d => (k.world, so.both (.failure d))
    | .ok text => match k.compile path text with
      | none => (k.world, so.both .exhausted)
      | some (.error d, k) => (k.world, so.both (.failure d))
      | some (.ok c, k) => compileAll k (so.both (report c)) last paths

/-- Writes the descriptors and names the files. -/
def writeOutputs (k : Work) (so : Outcome) : World × Outcome :=
  match SessionM.writeDescriptors.run k with
  | (.ok paths, k) => (emit k.world (writtenText paths), so)
  | (.error d, k) => (k.world, so.both (.failure d))

/-- Runs a command in a session. -/
def runIn (k : Work) : Command → World × Outcome
  | .expand file trace => withCompilation k file fun k c =>
    (emit k.world (if trace then traceText c.expansions else c.program.print ++ "\n"), report c)
  | .macros file => withCompilation k file fun k c =>
    (emit k.world (macrosText k.session.types), report c)
  | .compile path _ =>
    match k.session.settings.destination with
    | none => (k.world, .failure (.ofConfiguration
        "no output directory: pass --out or set `destination`"))
    | some _ => match sourceFiles k.world.files path with
      | .error d => (k.world, .failure d)
      | .ok files => compileAll k .success writeOutputs files
  | .ast file =>
    match (do Program.parse file (← readSource k.world.files file)) with
    | .error d => (k.world, .failure d)
    | .ok n => (emit k.world (n.outline.render ++ "\n"), .success)

/-- Runs a command.  To show a tree takes no settings. -/
def runCommand (w : World) (flags : Flags) (command : Command) : World × Outcome :=
  match command, settings w.files flags command.out with
  | .ast file, _ => runIn ⟨Session.start {} .shared, w⟩ (.ast file)
  | _, .error d => (w, .failure d)
  | command, .ok s => runIn ⟨Session.start s .shared, w⟩ command

/-- The version of the program. -/
def versionText : String := "kiln 0.1.0\n"

/-- Runs a command line. -/
def run (w : World) (args : List String) : World × Outcome :=
  match Request.ofArguments args with
  | .run flags command => runCommand w flags command
  | .version => (emit w versionText, .success)
  | .help topic => (emit w (help topic), .success)
  | .misuse reason => (w, ⟨2, [.message ("error: " ++ reason)]⟩)

end CommandLine

end Quasiquote
