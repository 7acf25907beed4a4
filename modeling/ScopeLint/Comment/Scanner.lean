import ScopeLint.Text.Lines
import ScopeLint.Text.Word

/-! Finding the comments of a source text: line by line, past string literals, with the nesting of
brackets and the indentation that decide whether the text ends where it may. -/
namespace ScopeLint.Comment

/-- Why a text cannot be scanned. Rows count from one, columns from zero. -/
inductive ScanError where
  /-- The text ends inside brackets, or after a backslash. -/
  | openStatement (row : Nat)
  /-- The text ends inside the string literal that starts here. -/
  | openString (row column : Nat)
  /-- A line goes back to a column that no open block has. -/
  | badDedent (row : Nat)
  deriving DecidableEq

def ScanError.message : ScanError → String
  | .openStatement row => "('EOF in multi-line statement', (" ++ toString row ++ ", 0))"
  | .openString row column =>
    "('EOF in multi-line string', (" ++ toString row ++ ", " ++ toString column ++ "))"
  | .badDedent row =>
    "unindent does not match any outer indentation level (<tokenize>, line " ++ toString row ++ ")"

structure OpenString where
  mark : Char
  tripled : Bool
  row : Nat
  column : Nat

structure Scanner where
  row : Nat
  depth : Int
  continued : Bool
  opened : Option OpenString
  /-- A line inside a literal has to end with a backslash to go on. -/
  needsBackslash : Bool
  indents : List Nat
  comments : List (Nat × String)

def Scanner.start : Scanner := ⟨0, 0, false, none, false, [0], []⟩

def closeSingle (mark : Char) : List Char → Option (List Char)
  | [] => none
  | '\\' :: c :: rest => if c = '\n' then none else closeSingle mark rest
  | c :: rest => if c = mark then some rest else if c = '\\' then none else closeSingle mark rest

def closeTripled (mark : Char) : List Char → Option (List Char)
  | [] => none
  | '\\' :: c :: rest => if c = '\n' then none else closeTripled mark rest
  | c :: rest =>
    if c = mark ∧ [mark, mark].isPrefixOf rest then some (rest.drop 2)
    else if c = '\\' then none
    else closeTripled mark rest

def close (mark : Char) (tripled : Bool) (cs : List Char) : Option (List Char) :=
  if tripled then closeTripled mark cs else closeSingle mark cs

inductive Start where
  | closed (rest : List Char)
  /-- The line ends with a backslash inside the literal. -/
  | goesOn
  | broken

def startSingle (mark : Char) : List Char → Start
  | [] => .broken
  | '\\' :: '\n' :: _ => .goesOn
  | '\\' :: '\r' :: '\n' :: _ => .goesOn
  | '\\' :: _ :: rest => startSingle mark rest
  | c :: rest =>
    if c = mark then .closed rest
    else if c = '\\' ∨ c = '\n' then .broken
    else startSingle mark rest

def isMark (c : Char) : Bool := c == '\x27' || c == '\x22'

def stringPrefixes : List (List Char) :=
  [[], ['b'], ['r'], ['u'], ['f'], ['b', 'r'], ['r', 'b'], ['f', 'r'], ['r', 'f']]

def literalStart? (cs : List Char) : Option (Char × Nat) :=
  let letters := (cs.take 3).takeWhile (!isMark ·)
  match cs.drop letters.length with
  | [] => none
  | mark :: _ =>
    if isMark mark && stringPrefixes.contains (letters.map Char.toLower) then
      some (mark, letters.length)
    else none

def digitRun (isDigit : Char → Bool) : List Char → Nat
  | [] => 0
  | '_' :: c :: rest => if isDigit c then digitRun isDigit rest + 2 else 0
  | c :: rest => if isDigit c then digitRun isDigit rest + 1 else 0

def digitsLength (isDigit : Char → Bool) (cs : List Char) : Nat :=
  match cs with
  | c :: _ => if isDigit c then digitRun isDigit cs else 0
  | [] => 0

def isHex (c : Char) : Bool :=
  c.isDigit || ('a' ≤ c.toLower && c.toLower ≤ 'f')

def exponentLength (cs : List Char) : Nat :=
  match cs with
  | e :: rest =>
    if e = 'e' ∨ e = 'E' then
      let sign := if rest.head? == some '+' || rest.head? == some '-' then 1 else 0
      let digits := digitsLength Char.isDigit (rest.drop sign)
      if digits = 0 then 0 else 1 + sign + digits
    else 0
  | [] => 0

def floatLength (cs : List Char) : Nat :=
  let whole := digitsLength Char.isDigit cs
  let afterWhole := cs.drop whole
  if afterWhole.head? == some '.' then
    let part := digitsLength Char.isDigit (afterWhole.drop 1)
    if whole = 0 ∧ part = 0 then 0
    else
      let n := whole + 1 + part
      n + exponentLength (cs.drop n)
  else if whole = 0 then 0
  else
    let e := exponentLength afterWhole
    if e = 0 then 0 else whole + e

def basedLength (letter : Char) (isDigit : Char → Bool) (cs : List Char) : Nat :=
  match cs with
  | '0' :: c :: rest =>
    if c.toLower = letter then
      let digits := digitRun isDigit rest
      if digits = 0 then 0 else 2 + digits
    else 0
  | _ => 0

def wholeLength (cs : List Char) : Nat :=
  let hex := basedLength 'x' isHex cs
  let binary := basedLength 'b' (fun c => c = '0' ∨ c = '1') cs
  let octal := basedLength 'o' (fun c => '0' ≤ c ∧ c ≤ '7') cs
  if hex ≠ 0 then hex
  else if binary ≠ 0 then binary
  else if octal ≠ 0 then octal
  else if cs.head? == some '0' then digitsLength (· == '0') cs
  else digitsLength Char.isDigit cs

def isImaginaryUnit (c : Option Char) : Bool := c == some 'j' || c == some 'J'

def numberLength (cs : List Char) : Nat :=
  let digits := digitsLength Char.isDigit cs
  let float := floatLength cs
  if digits ≠ 0 ∧ isImaginaryUnit cs[digits]? then digits + 1
  else if float ≠ 0 then if isImaginaryUnit cs[float]? then float + 1 else float
  else wholeLength cs

def isSpace (c : Char) : Bool := c == ' ' || c == '\t' || c == '\x0c'

def bracketStep (c : Char) : Int :=
  if ['(', '[', '\x7b'].contains c then 1
  else if [')', ']', '\x7d'].contains c then -1
  else 0

/-- The rest of a line from `column` on. Three points are one token, so that no number starts with the
last of them. The fuel bounds the number of tokens; the length of the line is enough. -/
def scanTokens : Nat → Nat → List Char → Scanner → Scanner
  | 0, _, _, s => s
  | fuel + 1, column, line, s =>
    let cs := line.dropWhile isSpace
    let column := column + (line.length - cs.length)
    let skip := fun n => scanTokens fuel (column + n) (cs.drop n) s
    match cs with
    | [] => s
    | '\\' :: '\n' :: _ => { s with continued := true }
    | '\\' :: '\r' :: '\n' :: _ => { s with continued := true }
    | '.' :: '.' :: '.' :: _ => skip 3
    | c :: rest =>
      if c = '#' then
        let text := cs.takeWhile fun c => c != '\r' && c != '\n'
        scanTokens fuel (column + text.length) (cs.drop text.length)
          { s with comments := (s.row, String.ofList text) :: s.comments }
      else
        match literalStart? cs with
        | some (mark, letters) =>
          let inner := cs.drop (letters + 1)
          if [mark, mark].isPrefixOf inner then
            match closeTripled mark (inner.drop 2) with
            | some after => scanTokens fuel (column + (cs.length - after.length)) after s
            | none => { s with opened := some ⟨mark, true, s.row, column⟩ }
          else
            match startSingle mark inner with
            | .closed after => scanTokens fuel (column + (cs.length - after.length)) after s
            | .goesOn =>
              { s with opened := some ⟨mark, false, s.row, column⟩, needsBackslash := true }
            | .broken => skip (max letters 1)
        | none =>
          let number := numberLength cs
          if number ≠ 0 then skip number
          else if Text.isWord c then skip (cs.takeWhile Text.isWord).length
          else scanTokens fuel (column + 1) rest { s with depth := s.depth + bracketStep c }

/-- The column that leading blanks go to; tabs go to multiples of eight. -/
def indentColumn (column : Nat) : List Char → Nat
  | ' ' :: rest => indentColumn (column + 1) rest
  | '\t' :: rest => indentColumn ((column / 8 + 1) * 8) rest
  | '\x0c' :: rest => indentColumn 0 rest
  | _ => column

def settleIndent (row column : Nat) (indents : List Nat) : Except ScanError (List Nat) :=
  if indents.headD 0 < column then .ok (column :: indents)
  else if indents.contains column then .ok (indents.dropWhile (column < ·))
  else if column < indents.headD 0 then .error (.badDedent row)
  else .ok indents

def endsWithBackslash (line : List Char) : Bool :=
  match line.reverse with
  | '\n' :: '\\' :: _ => true
  | '\n' :: '\r' :: '\\' :: _ => true
  | _ => false

/-- A line that starts a statement: blank lines and comments do not count for the indentation. -/
def scanStatement (line : List Char) (s : Scanner) : Except ScanError Scanner :=
  let cs := line.dropWhile isSpace
  match cs with
  | [] => .ok s
  | '#' :: _ =>
    let text := (cs.reverse.dropWhile fun c => c = '\r' ∨ c = '\n').reverse
    .ok { s with comments := (s.row, String.ofList text) :: s.comments }
  | '\r' :: _ => .ok s
  | '\n' :: _ => .ok s
  | _ => do
    let indents ← settleIndent s.row (indentColumn 0 line) s.indents
    return scanTokens line.length (line.length - cs.length) cs { s with indents }

def scanLine (line : List Char) (s : Scanner) : Except ScanError Scanner :=
  let s := { s with row := s.row + 1 }
  match s.opened with
  | some o =>
    match close o.mark o.tripled line with
    | some rest =>
      .ok (scanTokens line.length (line.length - rest.length) rest
        { s with opened := none, needsBackslash := false })
    | none =>
      if s.needsBackslash && !endsWithBackslash line then .ok { s with opened := none } else .ok s
  | none =>
    if s.depth = 0 ∧ !s.continued then scanStatement line s
    else .ok (scanTokens line.length 0 line { s with continued := false })

def finish (s : Scanner) : Except ScanError (List (Nat × String)) :=
  match s.opened with
  | some o => .error (.openString o.row o.column)
  | none =>
    if s.depth = 0 ∧ !s.continued then .ok s.comments.reverse
    else .error (.openStatement (s.row + 1))

def scan (code : String) : Except ScanError (List (Nat × String)) := do
  let s ← (Text.feedLines code.toList).foldlM (fun s line => scanLine line s) Scanner.start
  finish s

end ScopeLint.Comment
