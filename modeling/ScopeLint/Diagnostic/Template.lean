import ScopeLint.Diagnostic.Spec

/-! Message templates: text with replacement fields in braces. A field names an argument by number,
by name or by its turn, may follow attributes and items of it, and may say how the value is
written. Doubled braces stand for themselves, and a specification may hold fields of its own. -/
namespace ScopeLint.Template

structure Field where
  /-- The argument, and the attributes and items to follow from it. -/
  name : List Char
  conversion : Option Char
  spec : List Char
  deriving DecidableEq

inductive Piece where
  | literal (c : Char)
  | field (f : Field)
  | broken (problem : FormatProblem)
  deriving DecidableEq

/-- The name of a field, the character that ends it, and the rest. Between brackets anything may
stand. -/
def readName (bracketed : Bool) :
    List Char → Except FormatProblem (List Char × Char × List Char)
  | [] => .error .unclosedField
  | c :: rest =>
    if bracketed then
      (readName (c != ']') rest).map fun r => (c :: r.1, r.2)
    else if c = '\x7b' then .error .braceInName
    else if c = '\x7d' ∨ c = ':' ∨ c = '!' then .ok ([], c, rest)
    else (readName (c == '[') rest).map fun r => (c :: r.1, r.2)

def readSpec (depth : Nat) : List Char → Except FormatProblem (List Char × List Char)
  | [] => .error .unclosedSpec
  | c :: rest =>
    if c = '\x7d' then
      match depth with
      | 0 => .ok ([], rest)
      | depth + 1 => (readSpec depth rest).map fun r => (c :: r.1, r.2)
    else if c = '\x7b' then (readSpec (depth + 1) rest).map fun r => (c :: r.1, r.2)
    else (readSpec depth rest).map fun r => (c :: r.1, r.2)

def readTail (mark : Char) (cs : List Char) :
    Except FormatProblem (Option Char × List Char × List Char) :=
  if mark = '!' then
    match cs with
    | [] => .error .noConversion
    | [_] => .error .unclosedSpec
    | c :: d :: rest =>
      if d = '\x7d' then .ok (some c, [], rest)
      else if d = ':' then (readSpec 0 rest).map fun r => (some c, r.1, r.2)
      else .error .badConversionEnd
  else if mark = ':' then (readSpec 0 cs).map fun r => (none, r.1, r.2)
  else .ok (none, [], cs)

def readField (cs : List Char) : Except FormatProblem (Field × List Char) := do
  let (name, mark, rest) ← readName false cs
  let (conversion, spec, rest) ← readTail mark rest
  return (⟨name, conversion, spec⟩, rest)

/-- Pieces of a template, at most `fuel` of them; the length of the template is enough. -/
def piecesWithin : Nat → List Char → List Piece
  | 0, _ => []
  | _, [] => []
  | fuel + 1, c :: rest =>
    if c = '\x7b' then
      match rest with
      | [] => [.broken .loneOpen]
      | d :: after =>
        if d = '\x7b' then .literal d :: piecesWithin fuel after
        else
          match readField rest with
          | .ok (f, after) => .field f :: piecesWithin fuel after
          | .error problem => [.broken problem]
    else if c = '\x7d' then
      match rest with
      | d :: after =>
        if d = '\x7d' then .literal d :: piecesWithin fuel after else [.broken .loneClose]
      | [] => [.broken .loneClose]
    else .literal c :: piecesWithin fuel rest

def pieces (template : List Char) : List Piece := piecesWithin template.length template

inductive Numbering where
  | unset
  | manual
  | automatic (next : Nat)

/-- The number that a name stands for if it is all digits. Digits at the start are read as a number
in any case. -/
def index? (cs : List Char) : Except FormatProblem (Option Nat) := do
  match ← Spec.readNumber cs with
  | (some n, []) => return some n
  | _ => return none

def turn (numbering : Numbering) (cs : List Char) :
    Except FormatProblem (Option (Nat × Numbering)) := do
  if cs.isEmpty then
    match numbering with
    | .unset => return some (0, .automatic 1)
    | .automatic n => return some (n, .automatic (n + 1))
    | .manual => .error .automaticAfterManual
  else
    match ← index? cs, numbering with
    | none, _ => return none
    | some _, .automatic _ => .error .manualAfterAutomatic
    | some n, _ => return some (n, .manual)

def resolve (args : List Datum) (named : List (String × Datum)) (numbering : Numbering)
    (cs : List Char) : Except Fault (Datum × Numbering) := do
  match ← liftFormat (turn numbering cs) with
  | none =>
    match named.lookup (String.ofList cs) with
    | some d => .ok (d, numbering)
    | none => .error (.missingKey (Text.quoted (String.ofList cs)))
  | some (n, numbering) =>
    match args[n]? with
    | some d => .ok (d, numbering)
    | none => .error (.noArgument n)

def endsStep (c : Char) : Bool := c == '.' || c == '['

/-- The item that stands between brackets: by number, or by key. -/
def pick (d : Datum) (cs : List Char) : Except Fault Datum := do
  match ← liftFormat (index? cs) with
  | some n => d.item n
  | none => if cs.isEmpty then .error (.format .emptyAttribute) else d.entry (String.ofList cs)

/-- Follows attributes and items from `d`, at most `fuel` of them; the length of the text that names
them is enough. -/
def follow (d : Datum) : Nat → List Char → Except Fault Datum
  | 0, _ => .ok d
  | _, [] => .ok d
  | fuel + 1, c :: rest =>
    if c = '.' then
      let name := rest.takeWhile (!endsStep ·)
      if name.isEmpty then .error (.format .emptyAttribute)
      else do follow (← d.member (String.ofList name)) fuel (rest.dropWhile (!endsStep ·))
    else if c = '[' then
      match rest.dropWhile (· != ']') with
      | [] => .error (.format .openBracket)
      | _ :: after => do follow (← pick d (rest.takeWhile (· != ']'))) fuel after
    else .error (.format .afterBracket)

/-- Escapes for the characters that are not in ASCII. -/
def asciiChar (c : Char) : List Char := if c.toNat < 128 then [c] else Text.escapeCode c

def convert (conversion : Option Char) (d : Datum) : Except Fault Datum :=
  match conversion with
  | none => .ok d
  | some 'r' => .ok (.text d.shown)
  | some 's' => .ok (.text d.plain)
  | some 'a' => .ok (.text (String.ofList (d.shown.toList.flatMap asciiChar)))
  | some c => if c.toNat = 0 then .ok d else .error (.format (.unknownConversion c))

def evaluate (args : List Datum) (named : List (String × Datum)) (numbering : Numbering)
    (f : Field) : Except Fault (Datum × Numbering) := do
  let (d, numbering) ← resolve args named numbering (f.name.takeWhile (!endsStep ·))
  let d ← follow d f.name.length (f.name.dropWhile (!endsStep ·))
  return (← convert f.conversion d, numbering)

/-- Fills pieces from left to right. Fields in a specification are left to `deeper`. -/
def fillPieces (args : List Datum) (named : List (String × Datum))
    (deeper : Numbering → List Char → Except Fault (List Char × Numbering)) :
    Numbering → List Piece → Except Fault (List Char × Numbering)
  | numbering, [] => .ok ([], numbering)
  | numbering, .literal c :: rest => do
    let (cs, numbering) ← fillPieces args named deeper numbering rest
    return (c :: cs, numbering)
  | _, .broken problem :: _ => .error (.format problem)
  | numbering, .field f :: rest => do
    let (d, numbering) ← evaluate args named numbering f
    let (spec, numbering) ←
      if f.spec.contains '\x7b' then deeper numbering f.spec else pure (f.spec, numbering)
    let shown ← present spec d
    let (cs, numbering) ← fillPieces args named deeper numbering rest
    return (shown.toList ++ cs, numbering)

def fillWithin (args : List Datum) (named : List (String × Datum)) :
    Nat → Numbering → List Char → Except Fault (List Char × Numbering)
  | 0, _, _ => .error (.format .tooDeep)
  | depth + 1, numbering, template =>
    fillPieces args named (fillWithin args named depth) numbering (pieces template)

/-- The template with every field replaced, from left to right. Only texts are templates. -/
def fill (template : Datum) (args : List Datum) (named : List (String × Datum)) :
    Except Fault String :=
  match template with
  | .text t => (fillWithin args named 2 .unset t.toList).map fun r => String.ofList r.1
  | other => .error (.missingAttribute other.typeName "format")

end ScopeLint.Template
