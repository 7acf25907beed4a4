import ScopeLint.Comment.Scanner
import ScopeLint.Text.Blank
import ScopeLint.Tool

/-! Comments that suppress the diagnostics of their line. -/
namespace ScopeLint.Comment

def matchesLetter (letter c : Char) : Bool :=
  c.toLower == letter || (letter == 's' && c == 'ſ')

def afterWord : List Char → List Char → Option (List Char)
  | [], cs => some cs
  | _ :: _, [] => none
  | l :: word, c :: cs => if matchesLetter l c then afterWord word cs else none

def startsRequest (cs : List Char) : Bool :=
  (afterWord ['n', 'o', 'q', 'a'] (Text.trimLeft cs)).isSome

/-- Whether a request to suppress diagnostics starts here: right after a number sign, or after the
name of the tool and a colon or equals sign. -/
def requestsHere (cs : List Char) : Bool :=
  (match cs with
    | '#' :: rest => startsRequest rest
    | _ => false) ||
  match afterWord Tool.name.toList cs with
  | some (':' :: rest) => startsRequest rest
  | some ('=' :: rest) => startsRequest rest
  | _ => false

def requests : List Char → Bool
  | [] => false
  | cs@(_ :: rest) => requestsHere cs || requests rest

/-- Rows with a comment that asks for suppression. Where comments are not told apart from other
tokens the text is scanned for its errors only. -/
def suppressedRows (comments : Bool) (code : String) : Except ScanError (List Nat) := do
  let found ← scan code
  if comments then return (found.filter fun e => requests e.2.toList).map (·.1) else return []

end ScopeLint.Comment
