import ScopeLint.Text.Quoted

/-! Causes for which a check stops without an answer. -/
namespace ScopeLint

inductive FormatProblem where
  | loneOpen
  | loneClose
  | unclosedField
  | braceInName
  | noConversion
  | badConversionEnd
  | unclosedSpec
  | emptyAttribute
  | openBracket
  | afterBracket
  | manualAfterAutomatic
  | automaticAfterManual
  | tooManyDigits
  | tooDeep
  | unknownConversion (c : Char)
  | unknownCode (code : Char) (type : String)
  | badSpec (spec type : String)
  | bothSeparators
  | separatorWith (separator code : Char)
  | noPrecision
  | spaceInText
  | signInText
  | zeroInText
  | alternateInText
  | innerInText
  | precisionInInteger
  | zeroInInteger
  | signInCharacter
  | alternateInCharacter
  | precisionTooBig
  deriving DecidableEq

namespace FormatProblem

/-- A character of a template that is less than `limit`, and by its number any other or a blank. -/
def shownBelow (limit : Nat) (c : Char) : String :=
  if 32 < c.toNat ∧ c.toNat < limit then String.singleton c
  else "\\x" ++ String.ofList (Nat.toDigits 16 c.toNat)

def message : FormatProblem → String
  | .loneOpen => "Single '\x7b' encountered in format string"
  | .loneClose => "Single '\x7d' encountered in format string"
  | .unclosedField => "expected '\x7d' before end of string"
  | .braceInName => "unexpected '\x7b' in field name"
  | .noConversion => "end of string while looking for conversion specifier"
  | .badConversionEnd => "expected ':' after conversion specifier"
  | .unclosedSpec => "unmatched '\x7b' in format spec"
  | .emptyAttribute => "Empty attribute in format string"
  | .openBracket => "Missing ']' in format string"
  | .afterBracket => "Only '.' or '[' may follow ']' in format field specifier"
  | .manualAfterAutomatic =>
    "cannot switch from automatic field numbering to manual field specification"
  | .automaticAfterManual =>
    "cannot switch from manual field specification to automatic field numbering"
  | .tooManyDigits => "Too many decimal digits in format string"
  | .tooDeep => "Max string recursion exceeded"
  | .unknownConversion c => "Unknown conversion specifier " ++ shownBelow 127 c
  | .unknownCode code type =>
    "Unknown format code '" ++ shownBelow 128 code ++ "' for object of type '" ++ type ++ "'"
  | .badSpec spec type =>
    "Invalid format specifier '" ++ spec ++ "' for object of type '" ++ type ++ "'"
  | .bothSeparators => "Cannot specify both ',' and '_'."
  | .separatorWith separator code =>
    "Cannot specify '" ++ String.singleton separator ++ "' with '" ++ shownBelow 128 code ++ "'."
  | .noPrecision => "Format specifier missing precision"
  | .spaceInText => "Space not allowed in string format specifier"
  | .signInText => "Sign not allowed in string format specifier"
  | .zeroInText => "Negative zero coercion (z) not allowed in string format specifier"
  | .alternateInText => "Alternate form (#) not allowed in string format specifier"
  | .innerInText => "'=' alignment not allowed in string format specifier"
  | .precisionInInteger => "Precision not allowed in integer format specifier"
  | .zeroInInteger => "Negative zero coercion (z) not allowed in integer format specifier"
  | .signInCharacter => "Sign not allowed with integer format specifier 'c'"
  | .alternateInCharacter => "Alternate form (#) not allowed with integer format specifier 'c'"
  | .precisionTooBig => "precision too big"

end FormatProblem

inductive SizeProblem where
  | character
  | word
  | fraction
  deriving DecidableEq

def SizeProblem.message : SizeProblem → String
  | .character => "%c arg not in range(0x110000)"
  | .word => "Python int too large to convert to C long"
  | .fraction => "int too large to convert to float"

inductive Fault where
  | missingAttribute (owner name : String)
  | missingOfType (type name : String)
  | outOfRange
  | outOfText
  | emptyPop
  /-- A template asks for more arguments than there are. -/
  | noArgument (index : Nat)
  /-- There is nothing under a key, which is given as it would be written in source. -/
  | missingKey (shown : String)
  /-- An operation met a value of a type that it is not defined for. -/
  | wrongType
  /-- A name is neither loaded, stored nor deleted. -/
  | strayContext (shown : String)
  /-- A name is looked up while no scope is open. -/
  | noOpenScope
  | format (problem : FormatProblem)
  | tooLarge (problem : SizeProblem)
  | outOfMemory
  /-- The source compiler failed with an exception of its own. -/
  | raised (kind text : String)
  /-- The work queue outgrew every bound: doctests that contain themselves. -/
  | endless
  deriving DecidableEq

def Fault.message : Fault → String
  | .missingAttribute owner name =>
    "'" ++ owner ++ "' object has no attribute '" ++ name ++ "'"
  | .missingOfType type name =>
    "type object '" ++ type ++ "' has no attribute '" ++ name ++ "'"
  | .outOfRange => "list index out of range"
  | .outOfText => "string index out of range"
  | .emptyPop => "pop from empty list"
  | .noArgument index =>
    "Replacement index " ++ toString index ++ " out of range for positional args tuple"
  | .missingKey shown => shown
  | .wrongType => "operand of the wrong type"
  | .strayContext shown => "Got impossible expression context: " ++ shown
  | .noOpenScope =>
    "Stop argument for islice() must be None or an integer: 0 <= x <= sys.maxsize."
  | .format problem => problem.message
  | .tooLarge problem => problem.message
  | .outOfMemory => ""
  | .raised kind text => if kind = "KeyError" then Text.quoted text else text
  | .endless => "the queue of deferred work does not end"

end ScopeLint
