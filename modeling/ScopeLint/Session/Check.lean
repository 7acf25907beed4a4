import ScopeLint.Comment.Suppression
import ScopeLint.Session.Configuration
import ScopeLint.Skip

/-! Checking sources, files and directories under the settings that hold for them. -/
namespace ScopeLint

namespace Diagnostic

def sortByLine (ds : List Diagnostic) : Except Fault (List Diagnostic) :=
  let comparable := fun a b : Diagnostic => (a.line.before? b.line).isSome
  if ds.length < 2 || ds.all fun a => ds.all (comparable a) then
    .ok (ds.mergeSort fun a b => b.line.before? a.line != some true)
  else .error .wrongType

end Diagnostic

namespace Session

/-- The session with `items` for the list of what is ignored that checks share: the one that is kept
with the configuration of the directory `path` if there is one, or else the general one. -/
def extended (s : Session) (path : String) (items : List Datum) : Session :=
  let own := match s.configured.find? path with
    | some settings => (settings.lookup Settings.ignoredKey).isSome
    | none => false
  if own then
    { s with configured := s.configured.modify path (·.set Settings.ignoredKey (.list items)) }
  else { s with ignored := items }

end Session

namespace Work

/-- Keeps the list of what is ignored, which a check has extended, where the check had it from:
with the caller, with the configuration or with the session. A list made up for the check is
forgotten. -/
def keepIgnored (path : String) (overrides : Settings) (items : List Datum) : Work Settings := do
  if (overrides.lookup Settings.ignoredKey).isSome then
    return overrides.set Settings.ignoredKey (.list items)
  if overrides.any fun e => Settings.subject e.1 == Settings.ignoredKey then
    return overrides
  modify fun s => s.extended path items
  return overrides

/-- Tells that a file is skipped, if it is the only one asked for or the settings want to hear of
it. -/
def reportSkipped (settings : Settings) (filename : Datum) : Work Nat := do
  if ((settings.lookup "directly_being_checked").getD .null).same (.int 1) then
    report (.diagnostic (← lift (Kind.fileSkipped.compose filename [] [])))
    return 1
  let verbose := (settings.lookup "verbose").getD (.bool false)
  if verbose.truthy then
    let ignored := (settings.lookup Settings.ignoredKey).getD (.list [])
    let silent ← lift (anyOf (fun code => ignored.lists (.text code)) ["W200", "W201"])
    if !silent then
      report (.diagnostic
        (← lift (Kind.fileSkipped.compose filename [.null] [("verbose", verbose)])))
  return 0

def undecodable : String := "problem decoding source"

def fatalFailures : List String :=
  ["BaseException", "GeneratorExit", "KeyboardInterrupt", "SystemExit"]

def requestFor (host : Host) (tree : Node) (filename : Datum) (settings : Settings)
    (rows : List Nat) : Request where
  tree := tree
  filename := filename
  settings := settings
  dialect := host.dialect
  builtins := .null
  ignoredLines := .list (rows.map fun n : Nat => .int n)
  traced := host.traced
  compile := host.compileExample
  remarks := host.remarks filename

def reportFound (request : Request) : Work Nat := do
  let (state, fault) := request.run
  state.trace.toList.forM fun line => report (.notice (line ++ "\n"))
  match fault with
  | some e => throw (.fault e)
  | none =>
    let found ← lift (Diagnostic.sortByLine state.messages.toList)
    found.forM fun d => report (.diagnostic d)
    return found.length

def checkTree (host : Host) (path : String) (tree : Node) (code : String) (filename : Datum)
    (settings overrides : Settings) : Work (Nat × Settings) := do
  let rows ← match Comment.suppressedRows host.seesComments code with
    | .ok rows => pure rows
    | .error e => throw (.scan e)
  let request := requestFor host tree filename settings rows
  let overrides ← match request.setup with
    | .ok { ignored := .list items, .. } => keepIgnored path overrides items
    | _ => pure overrides
  return (← reportFound request, overrides)

def settingsPath (host : Host) (filename given : Datum) : Except Fault String :=
  if given.truthy then
    match given with
    | .text path => .ok path
    | _ => .error .wrongType
  else ofName filename
where
  ofName (filename : Datum) : Except Fault String :=
    if filename.truthy then
      match filename with
      | .text name => .ok (Path.directory (Path.absolute host.cwd name))
      | _ => .error .wrongType
    else .ok host.cwd

def reservedOverrides : List String := ["reporter", "settings_path"]

def checkOverrides (subjects : List String) (overrides : Settings) : Work Unit := do
  if overrides.any fun e => (subjects ++ reservedOverrides).contains e.1 then
    throw (.fault .wrongType)

def checkUnder (host : Host) (path code : String) (filename : Datum)
    (settings overrides : Settings) : Work (Nat × Settings) := do
  let skip := (settings.lookup "skip").getD (.list [])
  if ← lift (isSkipped skip filename) then
    return (← reportSkipped settings filename, overrides)
  match host.compile code filename with
  | .tree tree => checkTree host path tree code filename settings overrides
  | .failure kind text =>
    if fatalFailures.contains kind then throw (.fault (.raised kind text))
    report (.trouble filename undecodable)
    return (1, overrides)
  | .syntaxError _ _ _ .null =>
    report (.trouble filename undecodable)
    return (1, overrides)
  | .syntaxError message line offset text =>
    let verbose := (settings.lookup "verbose").getD .null
    let d ← lift (Kind.sourceSyntaxError.compose filename [message, line, offset, text]
      [("verbose", verbose)])
    report (.diagnostic d)
    return (1, overrides)

/-- Checks a source text that stands under a file name. The answer is the number of warnings, and
the overrides as the check leaves them. -/
def check (host : Host) (code : String) (filename given : Datum) (overrides : Settings) :
    Work (Nat × Settings) := do
  checkOverrides ["codeString", "filename"] overrides
  let path ← lift (settingsPath host filename given)
  let configured ← settingsFor host path
  let settings ← lift ((configured.withShared (← get).ignored).override overrides)
  checkUnder host path code filename settings overrides

def checkFile (host : Host) (path : String) (given : Datum) (overrides : Settings) :
    Work (Nat × Settings) := do
  checkOverrides ["filename"] overrides
  if !host.opensSources then throw .openMode
  if path.toList.contains (Char.ofNat 0) then throw .nullInPath
  match (← get).files.read host.cwd path with
  | .error e =>
    report (.trouble (.text path) e.reason)
    return (1, overrides)
  | .ok content =>
    match Text.decode content with
    | (cs, none) =>
      check host (String.ofList (Text.unifyBreaks cs ++ ['\n'])) (.text path) given overrides
    | (_, some _) =>
      report (.trouble (.text path) undecodable)
      return (1, overrides)

def checkEach (one : String → Settings → Work (Nat × Settings)) :
    List String → Settings → Work (Nat × Settings)
  | [], overrides => return (0, overrides)
  | path :: rest, overrides => do
    let (count, overrides) ← one path overrides
    let (more, overrides) ← checkEach one rest overrides
    return (count + more, overrides)

/-- Checks the source files below directories, and files that are named themselves. Each takes the
settings of its own directory, whatever directory is given. -/
def checkAll (host : Host) (paths : List String) (_given : Datum) (overrides : Settings) :
    Work (Nat × Settings) := do
  checkOverrides ["paths"] overrides
  let found := (← get).files.sources host.cwd paths
  checkEach (fun path => checkFile host path .null) found overrides

end Work

end ScopeLint
