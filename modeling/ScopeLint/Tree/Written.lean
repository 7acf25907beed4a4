import ScopeLint.Text.Blank
import ScopeLint.Tree.Basic

/-! Trees written out. A node stands in parentheses: its kind, its line and column unless it has no
position, and its fields, each as a name and a value. Lists stand in brackets, and texts in double
quotes, with a backslash before every double quote or backslash in them. -/
namespace ScopeLint.Tree

def isBracket (c : Char) : Bool := ['(', ')', '[', ']', '\x22'].contains c

def readWord (cs : List Char) : List Char × List Char :=
  let inside := fun c => !Text.isBlank c && !isBracket c
  (cs.takeWhile inside, cs.dropWhile inside)

def readQuoted : List Char → Option (List Char × List Char)
  | [] => none
  | '\\' :: c :: rest => (readQuoted rest).map fun r => (c :: r.1, r.2)
  | c :: rest =>
    if c = '\x22' then some ([], rest) else (readQuoted rest).map fun r => (c :: r.1, r.2)

def valueOfWord (word : String) : Value :=
  match word with
  | "null" => .null
  | "true" => .bool true
  | "false" => .bool false
  | word =>
    match word.toInt? with
    | some n => .int n
    | none => .constant word

def readPosition (cs : List Char) : Option Position × List Char :=
  let (line, rest) := readWord (Text.trimLeft cs)
  match (String.ofList line).toInt? with
  | none => (none, cs)
  | some line =>
    let (column, rest) := readWord (Text.trimLeft rest)
    (some (.of line (((String.ofList column).toInt?).getD 0)), rest)

mutual

def readValue : Nat → List Char → Option (Value × List Char)
  | 0, _ => none
  | fuel + 1, cs =>
    match Text.trimLeft cs with
    | [] => none
    | '(' :: rest =>
      let (kind, rest) := readWord rest
      let (position, rest) := readPosition rest
      (readFields fuel rest).map fun r => (.node ⟨0, String.ofList kind, position, r.1⟩, r.2)
    | '[' :: rest => (readItems fuel rest).map fun r => (.list r.1, r.2)
    | c :: rest =>
      if c = '\x22' then (readQuoted rest).map fun r => (.text (String.ofList r.1), r.2)
      else
        match readWord (c :: rest) with
        | ([], _) => none
        | (word, rest) => some (valueOfWord (String.ofList word), rest)

def readItems : Nat → List Char → Option (List Value × List Char)
  | 0, _ => none
  | fuel + 1, cs =>
    match Text.trimLeft cs with
    | ']' :: rest => some ([], rest)
    | cs => do
      let (v, rest) ← readValue fuel cs
      let (vs, rest) ← readItems fuel rest
      return (v :: vs, rest)

def readFields : Nat → List Char → Option (List (String × Value) × List Char)
  | 0, _ => none
  | fuel + 1, cs =>
    match Text.trimLeft cs with
    | ')' :: rest => some ([], rest)
    | cs => do
      let (name, rest) := readWord cs
      let (v, rest) ← readValue fuel rest
      let (fs, rest) ← readFields fuel rest
      return ((String.ofList name, v) :: fs, rest)

end

def read? (cs : List Char) : Option Node :=
  match readValue (cs.length + 1) cs with
  | some (.node n, rest) => if (Text.trim rest).isEmpty then some (n.numbered 0).1 else none
  | _ => none

end ScopeLint.Tree
