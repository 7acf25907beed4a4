import ScopeLint.Diagnostic.Template

/-! Kinds of diagnostics. Each has a code, whose first two characters name its series, a number, a
template for its text and one for the keyword shown in the long form. -/
namespace ScopeLint

inductive Form where
  | plain
  /-- From a position given beside the thing it is about. -/
  | positioned
  /-- From a source line that could not be read, which is shown with a caret under it. -/
  | sourceLine
  deriving DecidableEq

/-- A kind may be defined from values of any type. One that is not a text fails where a text is
needed, and not before. -/
structure Kind where
  code : Datum
  name : Datum
  template : Datum
  keyword : Datum
  number : Nat
  form : Form

namespace Kind

def ofTexts (code name template keyword : String) (number : Nat) (form : Form) : Kind :=
  ⟨.text code, .text name, .text template, .text keyword, number, form⟩

def defaultKeyword : String := "\x7b0!s\x7d"

def generic : Kind := ofTexts "I101" "Generic" "\x7b0\x7d" "" 100 .plain

def unusedImport : Kind :=
  ofTexts "E101" "UnusedImport" "\x7b0\x7d imported but unused" defaultKeyword 101 .plain

def redefinedWhileUnused : Kind :=
  ofTexts "E301" "RedefinedWhileUnused"
    "redefinition of \x7b0!r\x7d from line \x7b1.lineno!r\x7d" defaultKeyword 102 .plain

def redefinedInListComp : Kind :=
  ofTexts "E302" "RedefinedInListComp"
    "list comprehension redefines \x7b0!r\x7d from line \x7b1.lineno!r\x7d" defaultKeyword 103
    .plain

def importShadowedByLoopVar : Kind :=
  ofTexts "E102" "ImportShadowedByLoopVar"
    "import \x7b0!r\x7d from line \x7b1.lineno!r\x7d shadowed by loop variable" defaultKeyword 104
    .plain

def importStarUsed : Kind :=
  ofTexts "E103" "ImportStarUsed"
    "'from \x7b0!s\x7d import *' used; unable to detect undefined names" "*" 105 .plain

def undefinedName : Kind :=
  ofTexts "E303" "UndefinedName" "undefined name \x7b0!r\x7d" defaultKeyword 106 .plain

def doctestSyntaxError : Kind :=
  ofTexts "E401" "DoctestSyntaxError" "syntax error in doctest" "" 107 .positioned

def undefinedExport : Kind :=
  ofTexts "E304" "UndefinedExport" "undefined name \x7b0!r\x7d in __all__" defaultKeyword 108 .plain

def undefinedLocal : Kind :=
  ofTexts "E305" "UndefinedLocal"
    ("local variable \x7b0!r\x7d (defined in enclosing scope on line \x7b1.lineno!r\x7d)" ++
      " referenced before assignment")
    defaultKeyword 109 .plain

def duplicateArgument : Kind :=
  ofTexts "E206" "DuplicateArgument"
    "duplicate argument \x7b0!r\x7d in function definition" defaultKeyword 110 .plain

def redefined : Kind :=
  ofTexts "E306" "Redefined"
    "redefinition of \x7b0!r\x7d from line \x7b1.lineno!r\x7d" defaultKeyword 111 .plain

def lateFutureImport : Kind :=
  ofTexts "E207" "LateFutureImport"
    "future import(s) \x7b0!r\x7d after other statements" defaultKeyword 112 .plain

def unusedVariable : Kind :=
  ofTexts "E307" "UnusedVariable"
    "local variable \x7b0!r\x7d is assigned to but never used" defaultKeyword 113 .plain

def multipleValues : Kind :=
  ofTexts "E201" "MultipleValuesForArgument"
    "\x7b0!s\x7d() got multiple values for argument \x7b1!r\x7d" defaultKeyword 114 .plain

def tooFewArguments : Kind :=
  ofTexts "E202" "TooFewArguments"
    "\x7b0!s\x7d() takes at least \x7b1:d\x7d argument(s)" defaultKeyword 115 .plain

def tooManyArguments : Kind :=
  ofTexts "E203" "TooManyArguments"
    "\x7b0!s\x7d() takes at most \x7b1:d\x7d argument(s)" defaultKeyword 116 .plain

def unexpectedArgument : Kind :=
  ofTexts "E204" "UnexpectedArgument"
    "\x7b0!s\x7d() got unexpected keyword argument: \x7b1!r\x7d" defaultKeyword 117 .plain

def needKwOnlyArgument : Kind :=
  ofTexts "E205" "NeedKwOnlyArgument"
    "\x7b0!s\x7d() needs kw-only argument(s): \x7b1!s\x7d" defaultKeyword 118 .plain

def returnInGenerator : Kind :=
  ofTexts "E208" "ReturnWithArgsInsideGenerator"
    "'return' with argument inside generator" "return" 119 .plain

def bareExcept : Kind :=
  ofTexts "W101" "BareExcept"
    "bare except used: this is dangerous and should be avoided" "except" 120 .plain

def fileSkipped : Kind :=
  ofTexts "W201" "FileSkipped" "Skipped because of the current configuration" "skipped" 121 .plain

def sourceSyntaxError : Kind := ofTexts "E402" "PythonSyntaxError" "\x7b0!s\x7d" "" 122 .sourceLine

def builtin : List Kind :=
  [generic, unusedImport, redefinedWhileUnused, redefinedInListComp, importShadowedByLoopVar,
   importStarUsed, undefinedName, doctestSyntaxError, undefinedExport, undefinedLocal,
   duplicateArgument, redefined, lateFutureImport, unusedVariable, multipleValues,
   tooFewArguments, tooManyArguments, unexpectedArgument, needKwOnlyArgument,
   returnInGenerator, bareExcept, fileSkipped, sourceSyntaxError]

def series (k : Kind) : Datum := .text (String.ofList (k.code.plain.toList.take 2) ++ "00")

end Kind

/-- Kinds by code. A definition takes the next number and replaces the kind of the same code. -/
structure Registry where
  kinds : List (Datum.Key × Kind)
  next : Nat

namespace Registry

def initial : Registry :=
  ⟨Kind.builtin.map fun k => (.text k.code.plain, k), 100 + Kind.builtin.length⟩

def find (r : Registry) (code : Datum) : Except Fault Kind := do
  match r.kinds.lookup (← code.key) with
  | some k => return k
  | none => .error (.missingKey code.shown)

/-- Defines a kind from its code, name and template, and from its keyword if that is not the usual
one. A code that can be no key takes a number in vain. -/
def define (r : Registry) (form : Form) (parts : List Datum) : Except Fault Kind × Registry :=
  let add := fun code name template keyword : Datum =>
    let r := { r with next := r.next + 1 }
    let k : Kind := ⟨code, name, template, keyword, r.next - 1, form⟩
    match code.key with
    | .ok key => (.ok k, { r with kinds := (key, k) :: r.kinds })
    | .error e => (.error e, r)
  match parts with
  | [code, name, template] => add code name template (.text Kind.defaultKeyword)
  | [code, name, template, keyword] => add code name template keyword
  | _ => (.error .wrongType, r)

end Registry

end ScopeLint
