import ScopeLint.CommandLine.Run
import ScopeLint.Tree.Written

/-! The command. Sources are compiled by another program, which leaves the tree of the file `f` in
`f.tree`; a source without a tree is one that could not be read. Only files that are named, and the
configuration files around them, are loaded. -/
namespace ScopeLint.Command

def bytesOf? (path : String) : IO (Option (List UInt8)) := do
  try
    return some (← IO.FS.readBinFile path).toList
  catch _ =>
    return none

def loadFiles (cwd : String) (paths : List String) : IO FileTree :=
  paths.foldlM (fun t path => do
    match ← bytesOf? (Path.absolute cwd path) with
    | some content => return t.insert (FileTree.place cwd path) (.file content)
    | none => return t) (FileTree.empty.insert (FileTree.place cwd ".") .empty)

def pathsAround (host : Host) (file : String) : List String :=
  let directory := Path.directory (Path.absolute host.cwd file)
  file :: ConfigSource.all.flatMap (·.candidates host directory)

def outcomeOf (file : String) : IO (String × Outcome) := do
  let tree := (← bytesOf? (file ++ ".tree")).bind fun bytes => Tree.read? (Text.decode bytes).1
  return (file, match tree with
    | some n => .tree n
    | none => .failure "" "")

def host (cwd home : String) (outcomes : List (String × Outcome)) : Host where
  cwd
  home
  dialect := .threeFour
  traced := false
  seesComments := true
  opensSources := true
  compileExample := .ofTable []
  remarks _ := []
  compile _ filename :=
    match filename with
    | .text name => .ofTable outcomes name
    | _ => .failure "" ""

def exitCode : CommandLine.Exit → UInt32
  | .checked warned => if warned then 1 else 0
  | .status code => UInt32.ofNat code

def tell (reports : Array Report) : IO Unit :=
  reports.forM fun r => do
    IO.print r.output
    IO.eprint r.errorOutput

end ScopeLint.Command

open ScopeLint in
def main (arguments : List String) : IO UInt32 := do
  let cwd := (← IO.currentDir).toString
  let home := (← IO.getEnv "HOME").getD ""
  let files := match CommandLine.read arguments with
    | .ok (.run a) => a.files.map fun f => if f = "-" then CommandLine.inputName else f
    | _ => []
  let host := Command.host cwd home (← files.mapM Command.outcomeOf)
  let tree ← Command.loadFiles cwd (files.flatMap (Command.pathsAround host))
  let input ← if files.contains CommandLine.inputName then (← IO.getStdin).readToEnd else pure ""
  match CommandLine.run host arguments input (Session.initial tree) with
  | .ok exit s =>
    Command.tell s.reports
    return Command.exitCode exit
  | .error e s =>
    Command.tell s.reports
    IO.eprintln e.message
    return 1
