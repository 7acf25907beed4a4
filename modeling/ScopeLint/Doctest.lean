import ScopeLint.Text.Blank
import ScopeLint.Text.Lines

/-! Examples in documentation. An example is a line with the prompt `>>>`, the lines with the
prompt `...` after it, and its expected output: the lines up to the next blank line or prompt. -/
namespace ScopeLint

/-- Source, number of lines before it, and column of its prompt. -/
structure Example where
  source : String
  line : Nat
  indent : Nat
  deriving DecidableEq

namespace Doctest

/-- Tabs become blanks up to the next multiple of eight columns. -/
def expandTabs (column : Nat) : List Char → List Char
  | [] => []
  | c :: rest =>
    if c = '\t' then
      let width := 8 - column % 8
      List.replicate width ' ' ++ expandTabs (column + width) rest
    else if c = '\n' ∨ c = '\r' then c :: expandTabs 0 rest
    else c :: expandTabs (column + 1) rest

def margin (line : List Char) : Nat := (line.takeWhile (· == ' ')).length

def afterMargin (line : List Char) : List Char := line.dropWhile (· == ' ')

def margin? (line : List Char) : Option Nat :=
  match afterMargin line with
  | [] => none
  | c :: _ => if Text.isBlank c then none else some (margin line)

/-- The smallest margin of all lines that have something in them. -/
def commonMargin (lines : List (List Char)) : Nat :=
  ((lines.filterMap margin?).min?).getD 0

def startsWith (line : List Char) (mark : String) : Bool := mark.toList.isPrefixOf line

def isPrompt (line : List Char) : Bool := startsWith (afterMargin line) ">>>"

def isContinuation (line : List Char) : Bool := startsWith (afterMargin line) "..."

def isExpected (line : List Char) : Bool := !(afterMargin line).isEmpty && !isPrompt line

/-- A blank has to stand between a prompt and what follows it. -/
def hasPromptBlank (indent : Nat) (line : List Char) : Bool :=
  line.length < indent + 4 || (line.drop (indent + 3)).head? == some ' '

def isIndented (indent : Nat) (tail : List Char) (line : List Char) : Bool :=
  line.isEmpty || (List.replicate indent ' ' ++ tail).isPrefixOf line

/-- Nothing but blanks and a comment, up to a last line break. -/
def isComment (source : List Char) : Bool :=
  let source := if source.getLast? == some '\n' then source.dropLast else source
  match afterMargin source with
  | [] => true
  | c :: rest => c == '#' && !rest.contains '\n'

def optionNames : List String :=
  ["DONT_ACCEPT_TRUE_FOR_1", "DONT_ACCEPT_BLANKLINE", "NORMALIZE_WHITESPACE", "ELLIPSIS", "SKIP",
   "IGNORE_EXCEPTION_DETAIL", "REPORT_UDIFF", "REPORT_CDIFF", "REPORT_NDIFF",
   "REPORT_ONLY_FIRST_FAILURE", "FAIL_FAST"]

def wordsFrom (word : List Char) : List Char → List (List Char)
  | [] => if word.isEmpty then [] else [word.reverse]
  | c :: rest =>
    if Text.isBlank c then
      if word.isEmpty then wordsFrom [] rest else word.reverse :: wordsFrom [] rest
    else wordsFrom (c :: word) rest

def isOption : List Char → Bool
  | [] => false
  | sign :: name => (sign == '+' || sign == '-') && optionNames.contains (String.ofList name)

def directiveText? (cs : List Char) : Option (List Char × List Char) :=
  let text := cs.takeWhile fun c => c != '\n' && c != '\x27' && c != '\x22'
  match cs.drop text.length with
  | [] => some (text, [])
  | c :: rest => if c = '\n' then some (text, c :: rest) else none

/-- The first reading of a directive that ends with its line, where up to `blanks` leading blanks
may be passed over, as many as can be. -/
def directiveAfter? (cs : List Char) : Nat → Option (List Char × List Char)
  | 0 => directiveText? cs
  | blanks + 1 =>
    match directiveText? (cs.drop (blanks + 1)) with
    | some found => some found
    | none => directiveAfter? cs blanks

def directive? (cs : List Char) : Option (List Char × List Char) :=
  match cs with
  | '#' :: rest =>
    let rest := Text.trimLeft rest
    if startsWith rest "doctest:" then
      let rest := rest.drop 8
      directiveAfter? rest (rest.takeWhile Text.isBlank).length
    else none
  | _ => none

def directiveWords : Nat → List Char → List (List Char)
  | 0, _ => []
  | _, [] => []
  | fuel + 1, cs@(_ :: rest) =>
    match directive? cs with
    | some (text, after) =>
      wordsFrom [] (text.map fun c => if c = ',' then ' ' else c) ++ directiveWords fuel after
    | none => directiveWords fuel rest

def hasGoodDirectives (source : List Char) : Bool :=
  let words := directiveWords source.length source
  words.all isOption && (words.isEmpty || !isComment source)

def endLine (source : List Char) : List Char :=
  if source.getLast? == some '\n' then source else source ++ ['\n']

/-- The example of the lines `source` and `expected`, the first of them at `line`: none if the
lines are not laid out as they should be, `some none` if there is no code. -/
def read? (cut line : Nat) (source expected : List (List Char)) : Option (Option Example) :=
  let indent := margin (source.headD [])
  let code := Text.join "\n" (source.map fun l => String.ofList (l.drop (indent + 4)))
  if source.all (hasPromptBlank indent) && source.tail.all (isIndented indent ['.']) &&
      expected.all (isIndented indent []) && hasGoodDirectives code.toList then
    if isComment code.toList then some none
    else some (some ⟨String.ofList (endLine code.toList), line, cut + indent⟩)
  else none

def examplesWithin (cut : Nat) : Nat → Nat → List (List Char) → Option (List Example)
  | 0, _, _ => some []
  | _, _, [] => some []
  | fuel + 1, line, l :: rest =>
    if isPrompt l then
      let source := l :: rest.takeWhile isContinuation
      let rest := rest.dropWhile isContinuation
      let expected := rest.takeWhile isExpected
      let rest := rest.dropWhile isExpected
      match read? cut line source expected,
          examplesWithin cut fuel (line + source.length + expected.length) rest with
      | some found, some examples => some (found.toList ++ examples)
      | _, _ => none
    else examplesWithin cut fuel (line + 1) rest

def examples? (text : String) : Option (List Example) :=
  let lines := Text.splitAt '\n' (expandTabs 0 text.toList)
  let cut := commonMargin lines
  let lines := lines.map (·.drop cut)
  examplesWithin cut lines.length 0 lines

end Doctest

end ScopeLint
