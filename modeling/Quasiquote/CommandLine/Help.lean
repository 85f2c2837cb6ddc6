import Quasiquote.CommandLine.Arguments

namespace Quasiquote

/-!
# Help texts

* `CommandLine.help` — the help of a command, or that of the program.
-/

namespace CommandLine

/-- A table of names with what they stand for, in two columns. -/
def columns (rows : List (String × String)) : String :=
  let width := rows.foldl (fun w r => max w r.1.length) 0
  "".intercalate <| rows.map fun (name, text) =>
    "  " ++ name ++ String.ofList (List.replicate (width - name.length + 2) ' ') ++ text ++ "\n"

/-- The options of every command. -/
def sharedRows : List (List (String × String)) :=
  [[("    --config <CONFIG>",
      "Configuration file. Defaults to `kiln.yaml` in the working directory")],
   [("-c, --classpath <CLASSPATH>",
      "Directory searched for types and units compiled earlier (repeatable)")],
   [("    --package <PACKAGE>", "Package prefix of generated extension units")],
   [("-v, --verbose", "Log every synthesized extension unit")]]

/-- The options of a command: its own ones stand behind the first shared one. -/
def optionRows (own : List (String × String)) : List (String × String) :=
  match sharedRows with
  | first :: rest => first ++ own ++ rest.flatten ++ [("-h, --help", "Print help")]
  | [] => own

/-- The help of a command with one argument. -/
def commandHelp (name about argument text : String) (own : List (String × String)) : String :=
  about ++ "\n\nUsage: kiln " ++ name ++ " [OPTIONS] <" ++ argument ++ ">\n\nArguments:\n" ++
    columns [("<" ++ argument ++ ">", text)] ++ "\nOptions:\n" ++ columns (optionRows own)

/-- What the commands do. -/
def commandRows : List (String × String) :=
  [("expand", "Print the fully macro-expanded program"),
   ("macros", "List the macros a source file defines or imports"),
   ("compile", "Compile sources, writing units and type descriptors"),
   ("ast", "Show the syntax tree of a source file"),
   ("help", "Print this message or the help of the given subcommand(s)")]

/-- The help of the program. -/
def programHelp : String :=
  "Compiles macros into compiler extensions and expands their calls.\n\n" ++
    "Usage: kiln [OPTIONS] <COMMAND>\n\nCommands:\n" ++ columns commandRows ++
    "\nOptions:\n" ++ columns (optionRows [] ++ [("-V, --version", "Print version")])

/-- The help of a command, or that of the program. -/
def help : Option String → String
  | some "expand" => commandHelp "expand" "Print the fully macro-expanded program" "FILE"
      "The path to the Kiln source file to expand"
      [("    --trace", "Show every compiled macro expansion as a diff")]
  | some "macros" => commandHelp "macros" "List the macros a source file defines or imports"
      "FILE" "The path to the Kiln source file" []
  | some "compile" => commandHelp "compile"
      "Compile sources, writing units and type descriptors" "PATH"
      "A source file, or a directory searched for `.kiln` files"
      [("-o, --out <OUT>", "Output directory. Defaults to the configured destination")]
  | some "ast" => commandHelp "ast" "Show the syntax tree of a source file" "FILE"
      "The path to the Kiln source file to parse" []
  | some "help" => "Print this message or the help of the given subcommand(s)\n\n" ++
      "Usage: kiln help [COMMAND]...\n\nArguments:\n" ++
      columns [("[COMMAND]...", "Print help for the subcommand(s)")]
  | _ => programHelp

end CommandLine

end Quasiquote
