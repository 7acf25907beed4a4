import ScopeLint.Datum
import ScopeLint.Text.Digit

/-! Specifications of how a value is written: fill and alignment, sign, width, separators of
thousands, precision and a code for the form. -/
namespace ScopeLint.Template

/-- Where a value stands in a field that is wider; numbers may be filled between sign and digits. -/
inductive Align where
  | left
  | right
  | center
  | inner
  deriving DecidableEq

def Align.of? : Char → Option Align
  | '<' => some .left
  | '>' => some .right
  | '^' => some .center
  | '=' => some .inner
  | _ => none

structure Spec where
  fill : Char
  align : Align
  sign : Option Char
  /-- Whether a zero never has a minus sign. -/
  plainZero : Bool
  alternate : Bool
  width : Option Nat
  separator : Option Char
  precision : Option Nat
  code : Option Char
  deriving DecidableEq

namespace Spec

/-- The greatest number in a template. -/
def greatest : Nat := 9223372036854775807

def readNumber (cs : List Char) : Except FormatProblem (Option Nat × List Char) :=
  let digits := cs.takeWhile Text.isDigit
  if digits.isEmpty then .ok (none, cs)
  else if greatest < Text.numeral digits then .error .tooManyDigits
  else .ok (some (Text.numeral digits), cs.drop digits.length)

def readOne (wanted : List Char) (cs : List Char) : Option Char × List Char :=
  match cs with
  | c :: rest => if wanted.contains c then (some c, rest) else (none, cs)
  | [] => (none, [])

def readAlign (cs : List Char) : Option Char × Option Align × List Char :=
  match cs with
  | c :: d :: rest =>
    match Align.of? d, Align.of? c with
    | some align, _ => (some c, some align, rest)
    | none, some align => (none, some align, d :: rest)
    | none, none => (none, none, cs)
  | [c] =>
    match Align.of? c with
    | some align => (none, some align, [])
    | none => (none, none, cs)
  | [] => (none, none, [])

def readSeparator (cs : List Char) : Except FormatProblem (Option Char × List Char) :=
  match readOne [','] cs, readOne ['_'] cs with
  | (some comma, rest), _ => if rest.head? = some '_' then .error .bothSeparators
    else .ok (some comma, rest)
  | _, (some low, rest) => if rest.head? = some ',' then .error .bothSeparators
    else .ok (some low, rest)
  | _, _ => .ok (none, cs)

def readPrecision (cs : List Char) : Except FormatProblem (Option Nat × List Char) :=
  match cs with
  | '.' :: rest => do
    match ← readNumber rest with
    | (none, _) => .error .noPrecision
    | found => .ok found
  | cs => .ok (none, cs)

/-- The code that stands for no code where numbers with a point are written. -/
def noCode : Char := '\x00'

def separableCodes : List Char := ['d', 'e', 'f', 'g', 'E', 'G', '%', 'F', noCode]

/-- Codes for bases that are powers of two; digits are separated with low lines only. -/
def wordCodes : List Char := ['b', 'o', 'x', 'X']

def read (type : String) (usual : Option Char) (side : Align) (cs : List Char) :
    Except FormatProblem Spec := do
  let (fill, align, rest) := readAlign cs
  let (sign, rest) := readOne [' ', '+', '-'] rest
  let (plainZero, rest) := readOne ['z'] rest
  let (alternate, rest) := readOne ['#'] rest
  let (zero, rest) := if fill.isNone then readOne ['0'] rest else (none, rest)
  let (width, rest) ← readNumber rest
  let (separator, rest) ← readSeparator rest
  let (precision, rest) ← readPrecision rest
  if 1 < rest.length then .error (.badSpec (String.ofList cs) type)
  let code := match rest with
    | c :: _ => some c
    | [] => usual
  let inner := zero.isSome && align.isNone && decide (side = .right)
  match separator, code with
  | some mark, some c =>
    if !(separableCodes.contains c || (wordCodes.contains c && mark == '_')) then
      .error (.separatorWith mark c)
  | _, _ => pure ()
  return {
    fill := fill.getD (if zero.isSome then '0' else ' ')
    align := if inner then .inner else align.getD side
    sign
    plainZero := plainZero.isSome
    alternate := alternate.isSome
    width, separator, precision, code }

def pad (s : Spec) (cs : List Char) : List Char :=
  let lacking := s.width.getD 0 - cs.length
  let before := match s.align with
    | .right => lacking
    | .center => lacking / 2
    | _ => 0
  List.replicate before s.fill ++ cs ++ List.replicate (lacking - before) s.fill

/-- Digits in groups of `size` from the right, with zeros before them up to the width `least`.
Digits and result stand last first; the fuel bounds the number of groups. -/
def group (mark : Char) (size : Nat) : Nat → List Char → Int → List Char
  | 0, digits, _ => digits
  | fuel + 1, digits, least =>
    let count := min size (max (max digits.length least.toNat) 1)
    let chunk := digits.take count ++ List.replicate (count - digits.length) '0'
    let rest := digits.drop count
    if rest.isEmpty && decide (least ≤ count) then chunk
    else chunk ++ mark :: group mark size fuel rest (least - count - 1)

def grouped (s : Spec) (digits : List Char) (least : Int) : List Char :=
  match s.separator with
  | some mark =>
    let size := if (s.code.map wordCodes.contains).getD false then 4 else 3
    (group mark size (digits.length + least.toNat + 1) digits.reverse least).reverse
  | none => List.replicate (least.toNat - digits.length) '0' ++ digits

/-- A number in its field: a sign, what stands before the digits, the digits that can be grouped,
and what stands behind them. -/
def layout (s : Spec) (negative : Bool) (ahead digits behind : List Char) : String :=
  let sign := if negative then ['-'] else
    match s.sign with
    | some '+' => ['+']
    | some ' ' => [' ']
    | _ => []
  let others := sign.length + ahead.length + behind.length
  let filled := s.fill = '0' ∧ s.align = .inner
  let least : Int := if filled then (s.width.getD 0 : Int) - others else 0
  let digits := if digits.isEmpty then [] else s.grouped digits least
  if s.align = .inner then
    let lacking := s.width.getD 0 - (others + digits.length)
    String.ofList (sign ++ ahead ++ List.replicate lacking s.fill ++ digits ++ behind)
  else String.ofList (s.pad (sign ++ ahead ++ digits ++ behind))

/-- No field can be wider. -/
def widest : Nat := 10000000000

def inField (s : Spec) (written : Unit → String) : Except Fault String :=
  if widest < s.width.getD 0 then .error .outOfMemory else .ok (written ())

def textProblem? (s : Spec) : Option FormatProblem :=
  match s.sign with
  | some ' ' => some .spaceInText
  | some _ => some .signInText
  | none =>
    if s.plainZero then some .zeroInText
    else if s.alternate then some .alternateInText
    else if s.align = .inner then some .innerInText
    else none

/-- A text: it may be cut to the precision. -/
def presentText (s : Spec) (cs : List Char) : Except Fault String :=
  match s.textProblem? with
  | some problem => .error (.format problem)
  | none => s.inField fun _ => String.ofList (s.pad (cs.take (s.precision.getD cs.length)))

def presentCharacter (s : Spec) (n : Int) : Except Fault String :=
  if s.sign.isSome then .error (.format .signInCharacter)
  else if s.alternate then .error (.format .alternateInCharacter)
  else if n < -greatest - 1 ∨ greatest < n then .error (.tooLarge .word)
  else if n < 0 ∨ 0x10ffff < n then .error (.tooLarge .character)
  else s.inField fun _ => s.layout false [] [] [Char.ofNat n.toNat]

def baseOf : Char → Nat
  | 'b' => 2
  | 'o' => 8
  | 'x' | 'X' => 16
  | _ => 10

def presentInteger (s : Spec) (code : Char) (n : Int) : Except Fault String :=
  if s.precision.isSome then .error (.format .precisionInInteger)
  else if s.plainZero then .error (.format .zeroInInteger)
  else if code = 'c' then s.presentCharacter n
  else
    let digits := Nat.toDigits (baseOf code) n.natAbs
    let digits := if code = 'X' then digits.map Char.toUpper else digits
    let ahead := if s.alternate && wordCodes.contains code then ['0', code] else []
    s.inField fun _ => s.layout (decide (n < 0)) ahead digits []

/-- The digits of a number by a code: so many in all, so many behind the point, or as many as are
needed. -/
def decimalBy (s : Spec) (code : Char) (x : Double) : Decimal × Decimal.Style :=
  let mark := if code.isUpper then 'E' else 'e'
  let precision := s.precision.getD 6
  if code = 'e' ∨ code = 'E' then
    (x.significant (precision + 1), ⟨true, precision + 1, false, s.alternate, mark⟩)
  else if code = 'f' ∨ code = 'F' then
    let d := x.fixed precision
    (d, ⟨false, d.point + precision, false, s.alternate, mark⟩)
  else
    let count := max precision 1
    let d := x.significant count
    let fraction := s.code.isNone
    let limit : Int := if fraction then count - 1 else count
    (d, ⟨Double.isScientific d limit, if s.alternate then count else d.digits.length, fraction,
      s.alternate, mark⟩)

def presentReal (s : Spec) (x : Double) : Except Fault String :=
  if s.precision.any (2147483647 < ·) then .error (.format .precisionTooBig)
  else
    let code := s.code.getD 'g'
    let number := if code = '%' then x.percent else x
    let (d, style) :=
      if s.code.isNone && s.precision.isNone then
        let d := number.shortest
        (d, ⟨Double.isScientific d Double.scientificFrom, d.digits.length, true, s.alternate, 'e'⟩)
      else s.decimalBy (if code = '%' then 'f' else code) number
    let digits := if number.isExcessive then "inf" else d.write style
    let written := digits.toList ++ (if code = '%' then ['%'] else [])
    let isZero := d.digits.all (· == '0')
    let negative := x.negative && !(s.plainZero && isZero)
    s.inField fun _ =>
      s.layout negative [] (written.takeWhile Char.isDigit) (written.dropWhile Char.isDigit)

def integerCodes : List Char := ['b', 'c', 'd', 'o', 'x', 'X', 'n']

def realCodes : List Char := ['e', 'E', 'f', 'F', 'g', 'G', '%']

end Spec

def liftFormat {α : Type} : Except FormatProblem α → Except Fault α
  | .ok a => .ok a
  | .error problem => .error (.format problem)

def present (spec : List Char) (d : Datum) : Except Fault String :=
  if spec.isEmpty then .ok d.plain
  else
    match d, d.integer? with
    | .text t, _ => do
      let s ← liftFormat (Spec.read d.typeName (some 's') .left spec)
      if s.code = some 's' then s.presentText t.toList
      else .error (.format (.unknownCode (s.code.getD 's') d.typeName))
    | .real x, _ => do
      let s ← liftFormat (Spec.read d.typeName none .right spec)
      match s.code with
      | none => s.presentReal x
      | some 'n' => s.presentReal x
      | some c =>
        if c = Spec.noCode then Spec.presentReal { s with code := none } x
        else if Spec.realCodes.contains c then s.presentReal x
        else .error (.format (.unknownCode c d.typeName))
    | d, some n => do
      let s ← liftFormat (Spec.read d.typeName (some 'd') .right spec)
      let code := s.code.getD 'd'
      if Spec.integerCodes.contains code then s.presentInteger code n
      else if Spec.realCodes.contains code then
        let x := (Double.ofInt n).rounded
        if x.isExcessive then .error (.tooLarge .fraction) else s.presentReal x
      else .error (.format (.unknownCode code d.typeName))
    | _, none => .error .wrongType

end ScopeLint.Template
