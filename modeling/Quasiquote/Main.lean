import Quasiquote.CommandLine.Run

namespace Quasiquote

/-!
# The program

Runs a command line on the files of the machine.  What the command can reach is read
into a tree before the run, and what the run changed in the tree is written
afterwards; in between nothing is read or written.

* `CommandLine.reach` — reads files and directories into a tree;
* `CommandLine.store` — writes what differs between two trees;
* `main` — the program.
-/

namespace CommandLine

/-- Whether a file is of a kind that commands look for in directories. -/
def isKnown (name : String) : Bool :=
  [".kiln", ".kunit", ".kdesc"].any fun e => e.toList.reverse.isPrefixOf name.toList.reverse

/-- The tree with what stands at a path of the machine.  Of a directory, all files of
    a known kind are read; of any other path, the file itself if it is text. -/
partial def addTree (fs : Files) (p : Path) : IO Files := do
  let place := (← IO.currentDir) / p.toText
  if ← place.isDir then
    (← place.readDir).foldlM (fun fs e => do
      if isKnown e.fileName || (← e.path.isDir) then addTree fs (p ++ [e.fileName])
      else return fs) (fs.set p .directory)
  else if ← place.pathExists then
    let text ← (IO.FS.readFile place).toBaseIO
    return fs.set p (.text (text.toOption.getD ""))
  else return fs

/-- The tree with what stands at a path and what surrounds it. -/
def addPath (fs : Files) (p : Path) : IO Files := do
  let around (fs : Files) (n : Nat) : IO Files := do
    let above : Path := p.take n
    if ← ((← IO.currentDir) / above.toText).isDir then return fs.set above .directory
    else return fs
  addTree (← (List.range p.length).foldlM around fs) p

/-- The tree with what stands at written paths. -/
def addAll (fs : Files) (paths : List String) : IO Files :=
  (paths.map Path.ofText).foldlM addPath fs

/-- All files that a command line can reach: its settings, what it reads, and the
    directories of the settings. -/
def reach (args : List String) : IO Files := do
  match Request.ofArguments args with
  | .run flags command =>
    let fs ← addAll {} [flags.config.getD Settings.fileName, command.input]
    match settings fs flags command.out with
    | .ok s => addAll fs (s.classpath ++ s.destination.toList)
    | .error _ => return fs
  | .version | .help _ | .misuse _ => return {}

/-- Writes the entries of a tree that another tree does not have. -/
def store (before after : Files) : IO Unit := do
  let here ← IO.currentDir
  for (p, e) in after.entries do
    if before.get? p != some e then
      match e with
      | .directory => IO.FS.createDirAll (here / p.toText)
      | .text content => IO.FS.writeFile (here / p.toText) content

end CommandLine

end Quasiquote

open Quasiquote in
/-- Runs the command line on the machine's files.  The output goes to the standard
    output and all notices to the standard error. -/
def main (args : List String) : IO UInt32 := do
  let fs ← CommandLine.reach args
  let (w, outcome) := CommandLine.run { files := fs } args
  CommandLine.store fs w.files
  IO.print w.printed
  for notice in outcome.notices do
    IO.eprint notice.text
  return outcome.status.toUInt32
