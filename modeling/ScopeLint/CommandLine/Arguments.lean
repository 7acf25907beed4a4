import ScopeLint.CommandLine.Usage
import ScopeLint.Text.Digit
import ScopeLint.Text.Lines
import ScopeLint.Text.Quoted

/-! Reading the arguments of the command line. Each argument is first told apart as a switch or a
value; then the switches are carried out in turn, and the first run of values between them are the
files. -/
namespace ScopeLint.CommandLine

inductive UsageError where
  | ambiguous (argument : String) (spellings : List String)
  | noValue (switch : Switch)
  | needlessValue (switch : Switch) (value : String)
  | noFiles
  | unknown (arguments : List String)
  deriving DecidableEq

def UsageError.message : UsageError → String
  | .ambiguous argument spellings =>
    "ambiguous option: " ++ argument ++ " could match " ++ Text.join ", " spellings
  | .noValue switch => about switch ++ "expected one argument"
  | .needlessValue switch value =>
    about switch ++ "ignored explicit argument " ++ Text.quoted value
  | .noFiles => "the following arguments are required: files"
  | .unknown arguments => "unrecognized arguments: " ++ Text.join " " arguments
where
  about (switch : Switch) : String := "argument " ++ Text.join "/" switch.spellings ++ ": "

inductive Token where
  | value (text : String)
  /-- Two dashes: only values follow. -/
  | divider
  /-- A switch under one of its spellings, with a value attached to it. -/
  | switch (spelling : String) (switch : Switch) (attached : Option String)
  | unknown (text : String)
  deriving DecidableEq

namespace Token

def text : Token → String
  | .value text => text
  | .divider => "--"
  | .switch spelling _ _ => spelling
  | .unknown text => text

def isValue : Token → Bool
  | .value _ => true
  | _ => false

def isPlain : Token → Bool
  | .value _ | .divider => true
  | _ => false

end Token

def cutAtEquals (cs : List Char) : Option (String × String) :=
  match cs.dropWhile (· != '=') with
  | [] => none
  | _ :: rest => some (String.ofList (cs.takeWhile (· != '=')), String.ofList rest)

/-- The switches that an argument can be meant for: long ones by a part of their spelling from the
start, short ones with the rest of the argument as a value. -/
def candidates (cs : List Char) : List (String × Switch × Option String) :=
  match cs with
  | '-' :: '-' :: _ =>
    let (start, attached) := match cutAtEquals cs with
      | some (start, value) => (start.toList, some value)
      | none => (cs, none)
    (spelled.filter fun e => start.isPrefixOf e.1.toList).map fun e => (e.1, e.2, attached)
  | cs =>
    spelled.filterMap fun e =>
      if e.1.toList = cs.take 2 then some (e.1, e.2, some (String.ofList (cs.drop 2)))
      else if cs.isPrefixOf e.1.toList then some (e.1, e.2, none)
      else none

/-- Digits, with a decimal point among or before them. -/
def isNumber (cs : List Char) : Bool :=
  match cs.takeWhile Text.isDigit, cs.dropWhile Text.isDigit with
  | whole, [] => !whole.isEmpty
  | _, '.' :: digits => !digits.isEmpty && digits.all Text.isDigit
  | _, _ => false

/-- A minus sign and a number; a line feed may follow. -/
def isNegativeNumber : List Char → Bool
  | '-' :: rest => isNumber (if rest.getLast? = some '\n' then rest.dropLast else rest)
  | _ => false

/-- An argument that is spelled like no switch: an abbreviation, or with a value attached to it.
Negative numbers and texts with blanks are values. -/
def tokenOfUnspelled (argument : String) : Except UsageError Token :=
  let cs := argument.toList
  match candidates cs with
  | [(spelling, switch, attached)] => .ok (.switch spelling switch attached)
  | [] =>
    if isNegativeNumber cs || cs.contains ' ' then .ok (.value argument)
    else .ok (.unknown argument)
  | many => .error (.ambiguous argument (many.map (·.1)))

def tokenOf (argument : String) : Except UsageError Token :=
  match argument.toList with
  | [] | ['-'] => .ok (.value argument)
  | '-' :: rest =>
    match spelled.lookup argument, cutAtEquals ('-' :: rest) with
    | some switch, _ => .ok (.switch argument switch none)
    | none, some (spelling, value) =>
      match spelled.lookup spelling with
      | some switch => .ok (.switch spelling switch (some value))
      | none => tokenOfUnspelled argument
    | none, none => tokenOfUnspelled argument
  | _ => .ok (.value argument)

def tokens : List String → Except UsageError (List Token)
  | [] => .ok []
  | argument :: rest =>
    if argument = "--" then .ok (.divider :: rest.map .value)
    else return (← tokenOf argument) :: (← tokens rest)

/-- What a command line asks for. A value of a switch that is only a divider is no value, but counts
as given. -/
structure Arguments where
  files : List String
  recursive : Bool
  doctests : Bool
  verbose : Bool
  skip : List (Option String)
  ignored : List (Option String)
  kept : List (Option String)
  deriving DecidableEq

def Arguments.none : Arguments := ⟨[], false, false, false, [], [], []⟩

inductive Reading where
  | help
  | version
  | run (arguments : Arguments)
  deriving DecidableEq

abbrev Action := Request × Option String

def attachedValue (text : String) : Option String := if text = "--" then none else some text

/-- Short switches in one argument after `switch`, whose name the characters `cs` follow. The last
one may have a value: what is left of the argument, or the next token. -/
def joined (next : Option Token) (switch : Switch) : List Char →
    Except UsageError (List Action × Bool)
  | [] =>
    if switch.takesValue then
      match next with
      | some (.value text) => .ok ([(switch.request, some text)], true)
      | _ => .error (.noValue switch)
    else .ok ([(switch.request, none)], false)
  | c :: rest =>
    if switch.takesValue then
      .ok ([(switch.request, attachedValue (String.ofList (c :: rest)))], false)
    else
      match spelled.lookup (String.ofList ['-', c]) with
      | none => .error (.needlessValue switch (String.ofList (c :: rest)))
      | some other => do
        let (actions, took) ← joined next other rest
        return ((switch.request, none) :: actions, took)

def actionsOf (next : Option Token) (spelling : String) (switch : Switch)
    (attached : Option String) : Except UsageError (List Action × Bool) :=
  match attached with
  | none => joined next switch []
  | some value =>
    if switch.takesValue then .ok ([(switch.request, attachedValue value)], false)
    else if value = "" ∨ ['-', '-'].isPrefixOf spelling.toList then
      .error (.needlessValue switch value)
    else joined next switch value.toList

def perform (arguments : Arguments) : List Action → Reading
  | [] => .run arguments
  | (request, value) :: rest =>
    match request with
    | .help => .help
    | .version => .version
    | .recursive => perform { arguments with recursive := true } rest
    | .doctests => perform { arguments with doctests := true } rest
    | .verbose => perform { arguments with verbose := true } rest
    | .skip => perform { arguments with skip := arguments.skip ++ [value] } rest
    | .ignore => perform { arguments with ignored := arguments.ignored ++ [value] } rest
    | .keep => perform { arguments with kept := arguments.kept ++ [value] } rest

def valuesOf (run : List Token) : List String := (run.filter Token.isValue).map Token.text

structure Progress where
  arguments : Arguments
  hasFiles : Bool
  unknown : List String

/-- A run of tokens that are no switches: the files, if there are none yet and the run has any
value. -/
def Progress.takeRun (p : Progress) (run : List Token) : Progress :=
  if !p.hasFiles && run.any Token.isValue then
    { p with arguments := { p.arguments with files := valuesOf run }, hasFiles := true }
  else { p with unknown := p.unknown ++ run.map Token.text }

def Progress.finish (p : Progress) : Except UsageError Reading :=
  if !p.hasFiles then .error .noFiles
  else if !p.unknown.isEmpty then .error (.unknown p.unknown)
  else .ok (.run p.arguments)

/-- Goes through the tokens, where `run` holds the latest ones that are no switches, last
first. -/
def readTokens (p : Progress) (run : List Token) : List Token → Except UsageError Reading
  | [] => (p.takeRun run.reverse).finish
  | .unknown text :: rest =>
    let p := p.takeRun run.reverse
    readTokens { p with unknown := p.unknown ++ [text] } [] rest
  | .switch spelling switch attached :: rest => do
    let p := p.takeRun run.reverse
    let (actions, took) ← actionsOf rest.head? spelling switch attached
    match perform p.arguments actions with
    | .run arguments =>
      let p := { p with arguments }
      match took, rest with
      | true, _ :: rest => readTokens p [] rest
      | _, rest => readTokens p [] rest
    | ended => .ok ended
  | token :: rest => readTokens p (token :: run) rest

def read (arguments : List String) : Except UsageError Reading := do
  readTokens ⟨.none, false, []⟩ [] (← tokens arguments)

end ScopeLint.CommandLine
