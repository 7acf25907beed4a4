/-! Cutting texts at separators and at line breaks. -/
namespace ScopeLint.Text

def splitAt (sep : Char) : List Char → List (List Char)
  | [] => [[]]
  | c :: rest =>
    if c = sep then [] :: splitAt sep rest
    else
      match splitAt sep rest with
      | [] => [[c]]
      | piece :: pieces => (c :: piece) :: pieces

def split (sep : Char) (s : String) : List String :=
  (splitAt sep s.toList).map String.ofList

/-- Characters that end a line of a quoted source text. -/
def isLineBreak (c : Char) : Bool :=
  [10, 11, 12, 13, 28, 29, 30, 133, 8232, 8233].contains c.toNat

/-- Lines of `cs` without their breaks, where `line` is the reversed part of the current line. A
carriage return and a line feed after it are one break; a break at the end opens no line. -/
def linesFrom (line : List Char) : List Char → List (List Char)
  | [] => if line.isEmpty then [] else [line.reverse]
  | '\r' :: '\n' :: rest => line.reverse :: linesFrom [] rest
  | c :: rest =>
    if isLineBreak c then line.reverse :: linesFrom [] rest else linesFrom (c :: line) rest

def lines (cs : List Char) : List (List Char) := linesFrom [] cs

/-- Lines that keep their line feed; only a line feed ends a line here. -/
def feedLinesFrom (line : List Char) : List Char → List (List Char)
  | [] => if line.isEmpty then [] else [line.reverse]
  | '\n' :: rest => ('\n' :: line).reverse :: feedLinesFrom [] rest
  | c :: rest => feedLinesFrom (c :: line) rest

def feedLines (cs : List Char) : List (List Char) := feedLinesFrom [] cs

/-- Every carriage return, alone or before a line feed, becomes a line feed. -/
def unifyBreaks : List Char → List Char
  | [] => []
  | '\r' :: '\n' :: rest => '\n' :: unifyBreaks rest
  | '\r' :: rest => '\n' :: unifyBreaks rest
  | c :: rest => c :: unifyBreaks rest

def occursIn (part : List Char) : List Char → Bool
  | [] => part.isEmpty
  | whole@(_ :: rest) => part.isPrefixOf whole || occursIn part rest

/-- `whole` with every occurrence of the non-empty `part` left out, from left to right; the
`skip` characters next in line belong to an occurrence already found. -/
def eraseAllFrom (part : List Char) (skip : Nat) : List Char → List Char
  | [] => []
  | whole@(c :: rest) =>
    match skip with
    | skip + 1 => eraseAllFrom part skip rest
    | 0 =>
      if part.isPrefixOf whole then eraseAllFrom part (part.length - 1) rest
      else c :: eraseAllFrom part 0 rest

def eraseAll (part whole : String) : String :=
  String.ofList (eraseAllFrom part.toList 0 whole.toList)

def join (sep : String) : List String → String
  | [] => ""
  | [s] => s
  | s :: rest => s ++ sep ++ join sep rest

end ScopeLint.Text
