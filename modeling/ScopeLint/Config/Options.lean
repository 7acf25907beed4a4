import ScopeLint.Config.Document

/-! The options of a section: its own and the shared ones, with references to other options
replaced by their values. -/
namespace ScopeLint.Config

namespace Options

/-- A value for an option, which keeps its place if it has one. -/
def set (name value : String) : Options → Options
  | [] => [(name, value)]
  | e :: rest => if e.1 = name then (name, value) :: rest else e :: set name value rest

def update (options more : Options) : Options :=
  more.foldl (fun known e => set e.1 e.2 known) options

end Options

def reference? (cs : List Char) : Option (String × List Char) :=
  match cs.takeWhile (· != ')'), cs.dropWhile (· != ')') with
  | [], _ => none
  | name, ')' :: 's' :: rest => some (Text.lower (String.ofList name), rest)
  | _, _ => none

/-- Replaces the references in `cs`. Values that hold a percent sign are left to `deeper`; `size`
bounds the number of steps. -/
def replaceReferences (known : Options) (unknown : String → Error)
    (deeper : List Char → Except Error (List Char)) :
    Nat → List Char → Except Error (List Char)
  | 0, cs => .ok cs
  | _, [] => .ok []
  | size + 1, '%' :: rest =>
    match rest with
    | '%' :: rest => return '%' :: (← replaceReferences known unknown deeper size rest)
    | '(' :: inner =>
      match reference? inner with
      | none => .error (.badReference (String.ofList ('%' :: rest)))
      | some (name, rest) =>
        match known.lookup name with
        | none => .error (unknown name)
        | some value => do
          let value ← if value.toList.contains '%' then deeper value.toList else .ok value.toList
          return value ++ (← replaceReferences known unknown deeper size rest)
    | _ => .error (.strayPercent (String.ofList ('%' :: rest)))
  | size + 1, c :: rest => return c :: (← replaceReferences known unknown deeper size rest)

def expand (known : Options) (block option raw : String) :
    Nat → List Char → Except Error (List Char)
  | 0, _ => .error (.endlessReference option block raw)
  | depth + 1, cs =>
    replaceReferences known (fun name => .unknownReference option block name raw)
      (expand known block option raw depth) cs.length cs

namespace Document

def options (d : Document) (block : String) (own : Options) : Except Error Options :=
  let known := d.shared.update own
  known.mapM fun e => do
    let value ← expand known block e.1 e.2 referenceLimit e.2.toList
    return (e.1, String.ofList value)

/-- The options of those of the sections that there are; a later section overrides an earlier
one. -/
def merged (d : Document) (sections : List String) : Except Error Options :=
  sections.foldlM (fun known name =>
    match d.block? name with
    | some own => return known.update (← d.options name own)
    | none => return known) []

end Document

/-- The options of the named sections of a file. Files that many tools share may start with lines
of another kind: what stands before the first opening bracket is none of the sections' business. -/
def readOptions (path : String) (preamble : Bool) (content : List UInt8)
    (sections : List String) : Except Error Options := do
  let (lines, problem) :=
    if preamble then Text.fileLinesFrom (·.contains '[') content else Text.fileLines content
  let d ← Document.ofLines path lines problem
  d.merged sections

end ScopeLint.Config
