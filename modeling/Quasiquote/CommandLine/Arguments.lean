namespace Quasiquote

/-!
# Command line arguments

A command line names a command with its options.  Some options belong to every
command and may stand in front of it as well; of those that are given in both
places, the ones behind the command count.

* `Command`, `Flags`, `Request` — what a command line asks for;
* `Request.ofArguments` — reads a command line.
-/

namespace CommandLine

/-- What is done. -/
inductive Command where
  /-- Print a program with all macros expanded, or every single expansion. -/
  | expand (file : String) (trace : Bool)
  /-- List the macros that a source defines or imports. -/
  | macros (file : String)
  /-- Compile a source, or all sources in a directory. -/
  | compile (path : String) (out : Option String)
  /-- Show the tree of a source. -/
  | ast (file : String)
deriving DecidableEq, Repr

/-- The source that a command reads, or the directory of its sources. -/
def Command.input : Command → String
  | .expand file _ | .macros file | .compile file _ | .ast file => file

/-- The output directory that a command names. -/
def Command.out : Command → Option String
  | .compile _ out => out
  | .expand .. | .macros _ | .ast _ => none

/-- The options of every command. -/
structure Flags where
  config : Option String := none
  classpath : List String := []
  package : Option String := none
  verbose : Bool := false
deriving DecidableEq, Repr

/-- What a command line asks for. -/
inductive Request where
  | run (flags : Flags) (command : Command)
  | version
  /-- The help of a command, or that of the program. -/
  | help (topic : Option String)
  | misuse (reason : String)
deriving DecidableEq, Repr

/-- An option that a command line may have. -/
structure OptionSpec where
  long : String
  short : Option Char := none
  takesValue : Bool := false
  repeatable : Bool := false
  /-- Whether the value may be the empty text. -/
  allowsEmpty : Bool := false

/-- The options of every command. -/
def sharedOptions : List OptionSpec :=
  [{ long := "config", takesValue := true },
   { long := "classpath", short := some 'c', takesValue := true, repeatable := true },
   { long := "package", takesValue := true, allowsEmpty := true },
   { long := "verbose", short := some 'v' }]

/-- The options of one command. -/
def ownOptions : String → List OptionSpec
  | "expand" => [{ long := "trace" }]
  | "compile" => [{ long := "out", short := some 'o', takesValue := true }]
  | _ => []

/-- The names of the commands. -/
def commandNames : List String := ["expand", "macros", "compile", "ast"]

/-- What was read so far: options with their values, and other arguments. -/
structure Given where
  options : List (String × String) := []
  others : List String := []

namespace Given

/-- The values of an option. -/
def all (g : Given) (name : String) : List String :=
  (g.options.filter (·.1 == name)).map Prod.snd

/-- Whether an option is given. -/
def has (g : Given) (name : String) : Bool := g.options.any (·.1 == name)

/-- One more option. -/
def add (g : Given) (o : OptionSpec) (value : String) : Except Request Given :=
  if !o.repeatable && g.has o.long then
    .error (.misuse ("the argument '--" ++ o.long ++ "' cannot be used multiple times"))
  else if o.takesValue && !o.allowsEmpty && value = "" then
    .error (.misuse ("a value is required for '--" ++ o.long ++ "'"))
  else .ok { g with options := g.options ++ [(o.long, value)] }

end Given

/-- How a command line is read: which options there are, how help is asked for, and
    whether the version may be asked for. -/
structure Reader where
  options : List OptionSpec
  topic : Option String
  hasVersion : Bool

namespace Reader

variable (env : Reader)

/-- Whether an argument is a value rather than an option. -/
def isValue (a : String) : Bool := a = "-" || a.toList.head? != some '-'

/-- An option that does not exist. -/
def unknown {α : Type} (a : String) : Except Request α :=
  .error (.misuse ("unexpected argument '" ++ a ++ "' found"))

/-- An option without its value. -/
def valueMissing {α : Type} (o : OptionSpec) : Except Request α :=
  .error (.misuse ("a value is required for '--" ++ o.long ++ "' but none was supplied"))

/-- An option given by its long name.  Answers whether its value is still to
    come. -/
def long (g : Given) (name : String) (value : Option String) :
    Except Request (Given × Option OptionSpec) :=
  if name = "help" && value.isNone then .error (.help env.topic)
  else if name = "version" && value.isNone && env.hasVersion then .error .version
  else match env.options.find? (·.long == name) with
    | none => unknown ("--" ++ name)
    | some o => match o.takesValue, value with
      | false, none => do return (← g.add o "", none)
      | false, some _ => unknown ("--" ++ name)
      | true, some v => do return (← g.add o v, none)
      | true, none => return (g, some o)

/-- Options given by their letters, behind one dash. -/
def short (g : Given) : List Char → Except Request (Given × Option OptionSpec)
  | [] => return (g, none)
  | c :: cs =>
    if c = 'h' then .error (.help env.topic)
    else if c = 'V' && env.hasVersion then .error .version
    else match env.options.find? (·.short == some c) with
      | none => unknown (String.ofList ['-', c])
      | some o =>
        if o.takesValue then
          if cs.isEmpty then return (g, some o)
          else do
            let value := if cs.head? = some '=' then cs.drop 1 else cs
            return (← g.add o (String.ofList value), none)
        else do short (← g.add o "") cs

/-- An argument that begins with a dash. -/
def option (g : Given) (a : String) : Except Request (Given × Option OptionSpec) :=
  match a.toList with
  | '-' :: '-' :: cs =>
    let name := String.ofList (cs.takeWhile (· != '='))
    let value := (cs.dropWhile (· != '=')).drop 1
    env.long g name (if cs.contains '=' then some (String.ofList value) else none)
  | _ => env.short g (a.toList.drop 1)

/-- One more argument that is no option.  There may be `room` of them. -/
def other (g : Given) (room : Nat) (a : String) : Except Request Given :=
  if g.others.length < room then .ok { g with others := g.others ++ [a] } else unknown a

/-- Reads arguments, of which `room` are no options.  Answers those that are left
    when a command is met, if commands are looked for. -/
def read (room : Nat) (commands : Bool) (g : Given) :
    List String → Except Request (Given × List String)
  | [] => return (g, [])
  | "--" :: rest =>
    if commands then match rest with
      | [] => return (g, [])
      | a :: _ => unknown a
    else do return (← rest.foldlM (fun g a => other g room a) g, [])
  | a :: rest =>
    if isValue a then
      if commands then return (g, a :: rest)
      else do read room commands (← other g room a) rest
    else do
      match ← env.option g a with
      | (g, none) => read room commands g rest
      | (g, some o) => match rest with
        | v :: rest =>
          if isValue v then do read room commands (← g.add o v) rest else valueMissing o
        | [] => valueMissing o

end Reader

/-- The options of every command, given in front of it and behind it. -/
def flagsOf (front behind : Given) : Flags :=
  let single (name : String) := (behind.all name ++ front.all name).head?
  { config := single "config"
    classpath :=
      if behind.has "classpath" then behind.all "classpath" else front.all "classpath"
    package := single "package"
    verbose := front.has "verbose" || behind.has "verbose" }

/-- The command of a name with what was given for it. -/
def commandOf (name file : String) (g : Given) : Option Command :=
  match name with
  | "expand" => some (.expand file (g.has "trace"))
  | "macros" => some (.macros file)
  | "compile" => some (.compile file (g.all "out").head?)
  | "ast" => some (.ast file)
  | _ => none

/-- A word where the name of a command belongs. -/
def unrecognized (name : String) : Request :=
  .misuse ("unrecognized subcommand '" ++ name ++ "'")

/-- Reads what follows the name of a command. -/
def readCommand (front : Given) (name : String) (rest : List String) : Except Request Request := do
  let env : Reader := ⟨ownOptions name ++ sharedOptions, some name, false⟩
  let (behind, _) ← env.read 1 false {} rest
  match behind.others with
  | [] => .error (.misuse "a required argument was not provided")
  | file :: _ =>
    if file = "" then .error (.misuse "a value is required for the path")
    else match commandOf name file behind with
      | some command => return .run (flagsOf front behind) command
      | none => .error (unrecognized name)

/-- Reads what follows the word `help`. -/
def readHelp : List String → Request
  | [] => .help none
  | [name] =>
    if name = "help" || commandNames.contains name then .help (some name)
    else unrecognized name
  | _ :: a :: _ => unrecognized a

/-- Reads a command line, step by step. -/
def readAll (args : List String) : Except Request Request := do
  let env : Reader := ⟨sharedOptions, none, true⟩
  let (front, rest) ← env.read 0 true {} args
  match rest with
  | [] => .error (.misuse "a subcommand is required but one was not provided")
  | "help" :: rest => return readHelp rest
  | name :: rest =>
    if commandNames.contains name then readCommand front name rest
    else .error (unrecognized name)

/-- What a command line asks for. -/
def Request.ofArguments (args : List String) : Request :=
  match readAll args with
  | .ok r => r
  | .error r => r

end CommandLine

end Quasiquote
