import ScopeLint.Datum
import ScopeLint.Path

/-! Files that are left out by name or by the name of a directory on their path. -/
namespace ScopeLint

namespace Path

/-- The last component of the path, that of what stands before it, and so on until there is none;
`fuel` bounds their number. -/
def namesFrom : Nat → String → List String
  | 0, _ => []
  | fuel + 1, path =>
    let (head, tail) := splitLast path
    if tail = "" then [] else tail :: namesFrom fuel head

def names (path : String) : List String := namesFrom (path.length + 1) path

end Path

def anyOf (test : String → Except Fault Bool) : List String → Except Fault Bool
  | [] => .ok false
  | name :: rest => do
    if ← test name then return true
    anyOf test rest

/-- Whether `skip` lists the file as it is written, or one of the names on its path. -/
def isSkipped (skip filename : Datum) : Except Fault Bool := do
  if ← skip.lists filename then return true
  match filename with
  | .text path => anyOf (fun name => skip.lists (.text name)) (Path.names path)
  | _ => .error .wrongType

end ScopeLint
