import ScopeLint.Diagnostic.Kind
import ScopeLint.Text.Blank

/-! Diagnostics: a kind, a place and the text shown. -/
namespace ScopeLint

structure Diagnostic where
  kind : Kind
  text : String
  line : Datum
  column : Datum

/-- Arguments by name. An earlier entry hides a later one of the same name. -/
abbrev Named := List (String × Datum)

namespace Kind

/-- A diagnostic about `loc`, at its line and column unless `named` gives others. The long form
separates file, line, column, code, keyword and text by colons. -/
def about (k : Kind) (filename loc : Datum) (args : List Datum) (named : Named) :
    Except Fault Diagnostic := do
  let line ← if loc.truthy then loc.member "lineno" else pure (.int 0)
  let column := match loc.truthy, loc.member "col_offset" with
    | true, .ok c => c
    | _, _ => .int 0
  let values := named ++ [("filename", filename), ("lineno", line), ("col", column)]
  let line := (values.lookup "lineno").getD line
  let column := (values.lookup "col").getD column
  let message ← Template.fill k.template args values
  if ((named.lookup "verbose").getD .null).truthy then
    let keyword ← Template.fill k.keyword args values
    let text := Text.join ":"
      [filename.plain, line.plain, column.plain, k.code.plain, keyword, message]
    return ⟨k, text, line, column⟩
  else
    return ⟨k, filename.plain ++ ":" ++ line.plain ++ ": " ++ message, line, column⟩

def others (names : List String) (named : Named) : Named :=
  named.filter fun e => !names.contains e.1

/-- Parameters `names` filled in order from `args`, then by name. None of them may be given twice,
and all but the last `optional` ones have to be given. -/
def bindArguments (names : List String) (optional : Nat) (args : List Datum) (named : Named) :
    Except Fault (List Datum × List Datum × Named) :=
  let byPlace := names.take args.length
  let byName := names.drop args.length
  let required := byName.take (byName.length - optional)
  if byPlace.any fun n => (named.lookup n).isSome then .error .wrongType
  else if required.any fun n => (named.lookup n).isNone then .error .wrongType
  else
    .ok (args.take names.length ++ byName.map (fun n => (named.lookup n).getD .null),
      args.drop names.length, others byName named)

def extend (d : Datum) (tail : String) : Except Fault Datum :=
  match d with
  | .text s => .ok (.text (s ++ tail))
  | .list items => .ok (.list (items ++ tail.toList.map fun c => .text (String.singleton c)))
  | _ => .error .wrongType

def upTo (n : Int) (cs : List Char) : List Char :=
  if 0 ≤ n then cs.take n.toNat else cs.take (cs.length + n).toNat

/-- Blanks under the characters of `cs`, which are kept where they are blank themselves. -/
def underline (cs : List Char) : List Char :=
  cs.map fun c => if Text.isBlank c then c else ' '

/-- Message and named arguments of a source line that could not be read: the last line of `text`
goes under the message, and a caret under the column `offset`, counted from the line's start. -/
def sourceLineArguments (message offset text : Datum) (named : Named) :
    Except Fault (Datum × Named) := do
  let .text source := text | .error (.missingAttribute text.typeName "splitlines")
  let some line := (Text.lines source.toList).getLast? | .error .outOfRange
  let message ← extend message ("\n" ++ String.ofList line)
  match offset with
  | .null => return (message, named)
  | offset =>
    let some offset := offset.integer? | .error .wrongType
    let column := offset - (source.toList.length - line.length : Int)
    let caret := underline (upTo column line) ++ ['^']
    let message ← extend message ("\n" ++ String.ofList caret)
    return (message, ("col", .int column) :: named)

def compose (k : Kind) (filename : Datum) (args : List Datum) (named : Named) :
    Except Fault Diagnostic := do
  if named.any fun e => e.1 = "filename" ∨ e.1 = "self" then .error .wrongType
  match k.form with
  | .plain =>
    let (bound, rest, named) ← bindArguments ["loc"] 1 args named
    about k filename (bound.getD 0 .null) rest named
  | .positioned =>
    let (bound, rest, named) ← bindArguments ["loc", "position"] 1 args named
    let position := bound.getD 1 .null
    let named ←
      if position.truthy then do
        let line ← position.item 0
        let column ← position.item 1
        pure (("lineno", line) :: ("col", column) :: named)
      else pure named
    about k filename (bound.getD 0 .null) rest named
  | .sourceLine =>
    let (bound, rest, named) ← bindArguments ["msg", "lineno", "offset", "text"] 0 args named
    let (message, named) ← sourceLineArguments (bound.getD 0 .null) (bound.getD 2 .null)
      (bound.getD 3 .null) (("lineno", bound.getD 1 .null) :: named)
    if (named.lookup "loc").isSome then .error .wrongType
    about k filename .null (message :: rest) named

end Kind

end ScopeLint
