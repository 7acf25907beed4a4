import ScopeLint.Text.Quoted

/-! Modules kept as texts under their dotted names. The text of a package stands under the name of
the package followed by the name of its first part. -/
namespace ScopeLint

structure Bundle where
  location : String
  /-- Texts by name; a name may be known without a text. -/
  sources : List (String × Option String)

inductive LoadError where
  | missing (key : String)
  | badSource
  | noExecutor
  deriving DecidableEq

def LoadError.message : LoadError → String
  | .missing key => Text.quoted key
  | .badSource => "bad source"
  | .noExecutor => "name 'do_exec' is not defined"

structure LoadedModule where
  name : String
  file : String
  path : Option (List String)
  deriving DecidableEq

inductive LoadEvent where
  | compile (text : Option String) (name : String)
  | execute (text : Option String) (name : String)
  deriving DecidableEq

namespace Bundle

def packageKey (name : String) : String := name ++ ".__init__"

def holds (b : Bundle) (name : String) : Bool :=
  (b.sources.lookup name).isSome || (b.sources.lookup (packageKey name)).isSome

/-- The text of a module; a name known without a text is looked up as a package too. -/
def source? (b : Bundle) (name : String) : Option String :=
  match (b.sources.lookup name).join with
  | some text => some text
  | none => (b.sources.lookup (packageKey name)).join

def entry (b : Bundle) (name : String) : Except LoadError (Option String × Bool) :=
  match b.sources.lookup name, b.sources.lookup (packageKey name) with
  | some text, _ => .ok (text, false)
  | none, some text => .ok (text, true)
  | none, none => .error (.missing (packageKey name))

/-- The registered modules with `m` among them; the latest load of a name counts, at the place of
the first. -/
def register (m : LoadedModule) : List LoadedModule → List LoadedModule
  | [] => [m]
  | k :: rest => if k.name = m.name then m :: rest else k :: register m rest

def load (b : Bundle) (compiles : Option String → Bool) (executes : Bool) (name : String)
    (known : List LoadedModule) :
    Except LoadError LoadedModule × List LoadEvent × List LoadedModule :=
  match b.entry name with
  | .error e => (.error e, [], known)
  | .ok (text, isPackage) =>
    if compiles text then
      let m : LoadedModule :=
        ⟨name, b.location ++ "/" ++ name, if isPackage then some [name] else none⟩
      if executes then (.ok m, [.compile text name, .execute text name], register m known)
      else (.error .noExecutor, [.compile text name], register m known)
    else (.error .badSource, [], known)

end Bundle

end ScopeLint
