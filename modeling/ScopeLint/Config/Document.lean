import ScopeLint.Text.Blank
import ScopeLint.Text.Case
import ScopeLint.Text.Stream

/-! Configuration files: sections of options, one section for what all the others share. -/
namespace ScopeLint.Config

/-- Options in the order of their names' first mention. -/
abbrev Options := List (String × String)

inductive Error where
  /-- An option stands before the first section. -/
  | noSection (path : String) (row : Nat) (line : String)
  | badLines (path : String) (lines : List (Nat × String))
  | repeatedOption (path : String) (row : Nat) (option block : String)
  | repeatedSection (path : String) (row : Nat) (block : String)
  | undecodable (problem : Text.DecodeError)
  /-- A reference is not closed, or empty. -/
  | badReference (rest : String)
  | strayPercent (rest : String)
  | unknownReference (option block reference raw : String)
  | endlessReference (option block raw : String)

/-- References may lead to other references so many times. -/
def referenceLimit : Nat := 10

def Error.message : Error → String
  | .noSection path row line =>
    "File contains no section headers.\nfile: " ++ Text.quoted path ++ ", line: " ++
      toString row ++ "\n" ++ Text.quoted line
  | .badLines path lines =>
    "Source contains parsing errors: " ++ Text.quoted path ++
      Text.join "" (lines.map fun e => "\n\t[line " ++ rowText e.1 ++ "]: " ++ Text.quoted e.2)
  | .repeatedOption path row option block =>
    "While reading from " ++ Text.quoted path ++ " [line " ++ rowText row ++ "]: option " ++
      Text.quoted option ++ " in section " ++ Text.quoted block ++ " already exists"
  | .repeatedSection path row block =>
    "While reading from " ++ Text.quoted path ++ " [line " ++ rowText row ++ "]: section " ++
      Text.quoted block ++ " already exists"
  | .undecodable problem => problem.message
  | .badReference rest => "bad interpolation variable reference " ++ Text.quoted rest
  | .strayPercent rest =>
    "'%' must be followed by '%' or '(', found: " ++ Text.quoted rest
  | .unknownReference option block reference raw =>
    "Bad value substitution: option " ++ Text.quoted option ++ " in section " ++
      Text.quoted block ++ " contains an interpolation key " ++ Text.quoted reference ++
      " which is not a valid option name. Raw value: " ++ Text.quoted raw
  | .endlessReference option block raw =>
    "Recursion limit exceeded in value substitution: option " ++ Text.quoted option ++
      " in section " ++ Text.quoted block ++
      " contains an interpolation key which cannot be substituted in " ++
      toString referenceLimit ++ " steps. Raw value: " ++ Text.quoted raw
where
  /-- A row takes two places at least. -/
  rowText (row : Nat) : String := if row < 10 then " " ++ toString row else toString row

inductive Line where
  | comment
  | blank
  /-- Text without the blanks around it, and how far it is indented. -/
  | text (indent : Nat) (value : List Char)
  deriving DecidableEq

/-- Comments are whole lines that start with a number sign or a semicolon. -/
def Line.of (line : List Char) : Line :=
  match Text.trim line with
  | [] => .blank
  | c :: rest =>
    if c = '#' ∨ c = ';' then .comment
    else .text (line.takeWhile Text.isBlank).length (c :: rest)

def header? : List Char → Option String
  | '[' :: rest =>
    match (rest.reverse.dropWhile (· != ']')).tail.reverse with
    | [] => none
    | name => some (String.ofList name)
  | _ => none

def isDelimiter (c : Char) : Bool := c == '=' || c == ':'

def option? (value : List Char) : Option (String × String) :=
  match value.dropWhile (!isDelimiter ·) with
  | [] => none
  | _ :: rest =>
    let name := Text.trimRight (value.takeWhile (!isDelimiter ·))
    some (Text.lower (String.ofList name), String.ofList (Text.trim rest))

structure Block where
  name : String
  options : List (String × List String)

def extendLast (line : String) : List (String × List String) → List (String × List String)
  | [] => []
  | [(name, lines)] => [(name, lines ++ [line])]
  | e :: rest => e :: extendLast line rest

structure Reader where
  blocks : List Block
  current : Option String
  /-- Whether the option added last can go on. -/
  isOpen : Bool
  indent : Nat
  row : Nat
  badLines : List (Nat × String)

def Reader.start : Reader := ⟨[], none, false, 0, 0, []⟩

/-- The section whose options all the others share. It may be opened more than once. -/
def sharedBlock : String := "DEFAULT"

namespace Reader

def update (r : Reader) (name : String)
    (f : List (String × List String) → List (String × List String)) : Reader :=
  { r with blocks := r.blocks.map fun b => if b.name = name then { b with options := f b.options }
    else b }

def extend (r : Reader) (line : String) : Reader :=
  match r.current with
  | some name => if r.isOpen then r.update name (extendLast line) else r
  | none => r

def openBlock (r : Reader) (path name : String) : Except Error Reader :=
  let r := { r with current := some name, isOpen := false }
  if r.blocks.any (·.name == name) then
    if name = sharedBlock then .ok r else .error (.repeatedSection path r.row name)
  else .ok { r with blocks := r.blocks ++ [⟨name, []⟩] }

/-- Adds an option. One without a name is bad, and cannot go on, but takes its place. -/
def addOption (r : Reader) (path block : String) (line : List Char) (name value : String) :
    Except Error Reader :=
  let r := if name = "" then
      { r with badLines := r.badLines ++ [(r.row, String.ofList line)] }
    else r
  if r.blocks.any fun b => b.name == block && (b.options.lookup name).isSome then
    .error (.repeatedOption path r.row name block)
  else .ok { r.update block (· ++ [(name, [value])]) with isOpen := name ≠ "" }

def begin (r : Reader) (path : String) (line value : List Char) : Except Error Reader :=
  match header? value with
  | some name => r.openBlock path name
  | none =>
    match r.current with
    | none => .error (.noSection path r.row (String.ofList line))
    | some block =>
      match option? value with
      | some (name, content) => r.addOption path block line name content
      | none => .ok { r with badLines := r.badLines ++ [(r.row, String.ofList line)] }

/-- Reads one line. What is indented further than the last option belongs to it. -/
def step (path : String) (r : Reader) (line : List Char) : Except Error Reader :=
  let r := { r with row := r.row + 1 }
  match Line.of line with
  | .comment => .ok r
  | .blank => .ok (r.extend "")
  | .text indent value =>
    if r.current.isSome && r.isOpen && r.indent < indent then
      .ok (r.extend (String.ofList value))
    else { r with indent }.begin path line value

end Reader

structure Document where
  blocks : List (String × Options)

namespace Document

/-- An option's value: its lines without the blanks at the end. -/
def joinLines (lines : List String) : String :=
  String.ofList (Text.trimRight (Text.join "\n" lines).toList)

/-- Reads lines, of which `problem` tells what is wrong behind the last one. Bad lines are
complained of together, after everything else. -/
def ofLines (path : String) (lines : List (List Char)) (problem : Option Text.DecodeError) :
    Except Error Document := do
  let r ← lines.foldlM (Reader.step path) .start
  match problem with
  | some e => .error (.undecodable e)
  | none =>
    if r.badLines.isEmpty then
      .ok ⟨r.blocks.map fun b => (b.name, b.options.map fun e => (e.1, joinLines e.2))⟩
    else .error (.badLines path r.badLines)

def shared (d : Document) : Options := (d.blocks.lookup sharedBlock).getD []

def block? (d : Document) (name : String) : Option Options :=
  if name = sharedBlock then none else d.blocks.lookup name

end Document

end ScopeLint.Config
