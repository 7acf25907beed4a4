import ScopeLint.Session.Basic

/-! Looking for configuration files and reading settings from them. -/
namespace ScopeLint

structure ConfigSource where
  name : String
  /-- The file that counts if no nearer one is found; a tilde stands for a home directory. -/
  fallback : Option String
  /-- The sections with settings, later ones overriding earlier ones. -/
  sections : List String
  /-- Whether the sections may be preceded by lines of another kind. -/
  preamble : Bool

namespace ConfigSource

def all : List ConfigSource :=
  [⟨".editorconfig", some "~/.editorconfig", ["*", "*.py", "**.py"], true⟩,
   ⟨"." ++ Tool.name ++ ".cfg", some ("~/." ++ Tool.name ++ ".cfg"), ["settings"], false⟩,
   ⟨"setup.cfg", none, [Tool.name], false⟩]

def searchDepth : Nat := 25

/-- The path, its parent, and so on, at most `depth` of them. A relative path ends at nothing, and
an absolute one stays at the root. -/
def chain : Nat → String → List String
  | 0, _ => []
  | depth + 1, path => if path = "" then [] else path :: chain depth (Path.directory path)

def candidates (source : ConfigSource) (host : Host) (path : String) : List String :=
  (chain searchDepth path).map (Path.join · source.name) ++
    (source.fallback.map (Path.expandHome host.home host.users)).toList

def find? (source : ConfigSource) (host : Host) (files : FileTree) (path : String) :
    Option String :=
  (source.candidates host path).find? (files.exists? host.cwd)

end ConfigSource

namespace Work

/-- The options in a configuration file. They are kept, but a failing read is not. -/
def optionsIn (host : Host) (source : ConfigSource) (path : String) : Work Config.Options := do
  let key := (path, source.sections)
  match (← get).optionsRead.find? key with
  | some options =>
    modify fun s => { s with optionsRead := s.optionsRead.touch key }
    return options
  | none =>
    match (← get).files.read host.cwd path with
    | .error e => throw (.file path e)
    | .ok content =>
      match Config.readOptions path source.preamble content source.sections with
      | .error e => throw (.config e)
      | .ok options =>
        modify fun s => { s with optionsRead := s.optionsRead.insert key options }
        return options

def configureFrom (host : Host) (path : String) (settings : Settings) (source : ConfigSource) :
    Work Settings := do
  match source.find? host (← get).files path with
  | none => return settings
  | some file => return settings.applyOptions (← get).ignored (← optionsIn host source file)

def settingsFor (host : Host) (path : String) : Work Settings := do
  match (← get).configured.find? path with
  | some settings =>
    modify fun s => { s with configured := s.configured.touch path }
    return settings
  | none =>
    let settings ← ConfigSource.all.foldlM (configureFrom host path) Settings.unconfigured
    modify fun s => { s with configured := s.configured.insert path settings }
    return settings

end Work

end ScopeLint
