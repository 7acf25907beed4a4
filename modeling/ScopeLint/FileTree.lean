import ScopeLint.Path
import ScopeLint.Text.Order
import ScopeLint.Text.Utf8

/-! Files in nested directories. -/
namespace ScopeLint

/-- A file with its bytes, or a directory with its entries in the order of their names. -/
inductive FileTree where
  | file (content : List UInt8)
  | directory (entries : List (String × FileTree))

inductive FileError where
  | notFound
  | notDirectory
  | isDirectory
  | nameTooLong
  deriving DecidableEq

namespace FileError

def number : FileError → Nat
  | .notFound => 2
  | .notDirectory => 20
  | .isDirectory => 21
  | .nameTooLong => 36

def reason : FileError → String
  | .notFound => "No such file or directory"
  | .notDirectory => "Not a directory"
  | .isDirectory => "Is a directory"
  | .nameTooLong => "File name too long"

end FileError

namespace FileTree

def empty : FileTree := .directory []

def isDirectory : FileTree → Bool
  | .directory _ => true
  | .file _ => false

def find? (t : FileTree) : List String → Option FileTree
  | [] => some t
  | name :: rest =>
    match t with
    | .file _ => none
    | .directory entries =>
      match entries.lookup name with
      | some entry => entry.find? rest
      | none => none

def put (name : String) (t : FileTree) : List (String × FileTree) → List (String × FileTree)
  | [] => [(name, t)]
  | e :: rest =>
    if e.1 = name then (name, t) :: rest
    else if Text.precedes name.toList e.1.toList then (name, t) :: e :: rest
    else e :: put name t rest

def entries : FileTree → List (String × FileTree)
  | .directory entries => entries
  | .file _ => []

def insert (t : FileTree) : List String → FileTree → FileTree
  | [], new => new
  | name :: rest, new =>
    .directory (put name (((t.entries.lookup name).getD empty).insert rest new) t.entries)

def remove : List String → FileTree → FileTree
  | [], t => t
  | [name], t => .directory (t.entries.filter (·.1 != name))
  | name :: rest, t =>
    match t.entries.lookup name with
    | some entry => .directory (put name (remove rest entry) t.entries)
    | none => t

/-- The names that lead to a path seen from `cwd`, where every part of it is taken to be a
directory. -/
def place (cwd path : String) : List String :=
  (Text.split '/' (Path.absolute cwd path)).filter (· != "")

def longestName : Nat := 255

def longestPath : Nat := 4095

/-- Follows the parts of a path one by one, where `passed` are the names on the way so far, last
first. Every part but the last has to be a directory. -/
def follow (t : FileTree) (passed : List String) : List String → Except FileError (List String)
  | [] => .ok passed.reverse
  | part :: rest =>
    match t.find? passed.reverse with
    | some (.directory entries) =>
      if part = "" ∨ part = "." then follow t passed rest
      else if part = ".." then follow t passed.tail rest
      else if longestName < part.utf8ByteSize then .error .nameTooLong
      else if (entries.lookup part).isSome then follow t (part :: passed) rest
      else .error .notFound
    | some (.file _) => .error .notDirectory
    | none => .error .notFound

def locate (t : FileTree) (path : String) : Except FileError (List String) :=
  t.follow [] (Text.split '/' path)

def at? (t : FileTree) (cwd path : String) : Except FileError FileTree :=
  if path = "" then .error .notFound
  else if longestPath < path.utf8ByteSize then .error .nameTooLong
  else do
    let names ← t.locate (Path.join cwd path)
    match t.find? names with
    | some entry => .ok entry
    | none => .error .notFound

def exists? (t : FileTree) (cwd path : String) : Bool :=
  match t.at? cwd path with
  | .ok _ => true
  | .error _ => false

def read (t : FileTree) (cwd path : String) : Except FileError (List UInt8) := do
  match ← t.at? cwd path with
  | .file content => .ok content
  | .directory _ => .error .isDirectory

def isSourceName (name : String) : Bool := ['y', 'p', '.'].isPrefixOf name.toList.reverse

mutual

def sourcesBelow (path : String) : FileTree → List String
  | .file _ => []
  | .directory entries => sourcesAmong path entries ++ sourcesUnder path entries

def sourcesAmong (path : String) : List (String × FileTree) → List String
  | [] => []
  | (name, .file _) :: rest =>
    if isSourceName name then Path.join path name :: sourcesAmong path rest
    else sourcesAmong path rest
  | (_, .directory _) :: rest => sourcesAmong path rest

def sourcesUnder (path : String) : List (String × FileTree) → List String
  | [] => []
  | (name, entry) :: rest => sourcesBelow (Path.join path name) entry ++ sourcesUnder path rest

end

/-- Every directory among the paths stands for the source files below it, any other path for
itself. -/
def sources (t : FileTree) (cwd : String) (paths : List String) : List String :=
  paths.flatMap fun path =>
    match t.at? cwd path with
    | .ok (.directory entries) => sourcesBelow path (.directory entries)
    | _ => [path]

end FileTree

end ScopeLint
