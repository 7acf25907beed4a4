/-! Binary fractions, and among them the numbers with a significand of 53 bits. Their decimal forms
are found in exact arithmetic. -/
namespace ScopeLint

/-- The number `significand * 2 ^ exponent`, or that below zero if it is negative. Zero has a sign
too. -/
structure Double where
  negative : Bool
  significand : Nat
  exponent : Int
  deriving DecidableEq

/-- Decimal digits after a point, moved by `point` places to the right. -/
structure Decimal where
  digits : List Char
  point : Int
  deriving DecidableEq

/-- The quotient to the nearest, and a half to the even neighbour. -/
def roundDiv (n d : Nat) : Nat :=
  let q := n / d
  let r := n % d
  if d < 2 * r ∨ (2 * r = d ∧ q % 2 = 1) then q + 1 else q

namespace Decimal

def zero : Decimal := ⟨['0'], 1⟩

def ofScaled (n : Nat) (places : Int) : Decimal :=
  if n = 0 then ⟨[], -places⟩
  else
    let digits := Nat.toDigits 10 n
    ⟨(digits.reverse.dropWhile (· == '0')).reverse, digits.length - places⟩

def slice (d : Decimal) (start stop : Int) : List Char :=
  (List.range (stop - start).toNat).map fun i : Nat =>
    let place := start + i
    if place < 0 then '0' else d.digits.getD place.toNat '0'

/-- An exponent with its sign, of two digits at least. -/
def exponentText (e : Int) : String :=
  let digits := toString e.natAbs
  (if e < 0 then "-" else "+") ++ (if digits.length < 2 then "0" ++ digits else digits)

/-- How a decimal is written: with an exponent or without, up to which place, whether a digit has to
follow the point, and whether the point has to stand there at all. -/
structure Style where
  scientific : Bool
  stop : Int
  fraction : Bool
  keepsPoint : Bool
  mark : Char

def write (d : Decimal) (style : Style) : String :=
  let point := if style.scientific then 1 else d.point
  let start := if point ≤ 0 then point - 1 else 0
  let least := if style.fraction && !style.scientific then point + 1 else point
  let whole := d.slice start point
  let fraction := d.slice point (max style.stop least)
  String.ofList whole ++
    (if fraction.isEmpty && !style.keepsPoint then "" else "." ++ String.ofList fraction) ++
    (if style.scientific then String.singleton style.mark ++ exponentText (d.point - 1) else "")

end Decimal

namespace Double

def ofInt (n : Int) : Double := ⟨decide (n < 0), n.natAbs, 0⟩

def numerator (x : Double) : Nat := x.significand * Nat.pow 2 x.exponent.toNat

def denominator (x : Double) : Nat := Nat.pow 2 (-x.exponent).toNat

def signed (x : Double) : Int := if x.negative then -(x.numerator : Int) else x.numerator

def isZero (x : Double) : Bool := x.significand == 0

def ratio (x : Double) : Int × Nat :=
  let g := Nat.gcd x.numerator x.denominator
  (x.signed / (g : Int), x.denominator / g)

def equals (x y : Double) : Bool :=
  x.signed * (y.denominator : Int) == y.signed * (x.denominator : Int)

def below (x y : Double) : Bool :=
  decide (x.signed * (y.denominator : Int) < y.signed * (x.denominator : Int))

def lowest : Int := -1074

/-- The nearest number whose significand has 53 bits, with all of them in use where the exponent
allows. -/
def rounded (x : Double) : Double :=
  if x.significand = 0 then { x with exponent := 0 }
  else
    let bits : Int := Nat.log2 x.significand + 1
    let surplus := max (bits - 53) (lowest - x.exponent)
    if 0 ≤ surplus then
      { x with
        significand := roundDiv x.significand (Nat.pow 2 surplus.toNat)
        exponent := x.exponent + surplus }
    else
      { x with
        significand := x.significand * Nat.pow 2 (-surplus).toNat
        exponent := x.exponent + surplus }

def isExcessive (x : Double) : Bool := decide (Nat.pow 2 1024 ≤ x.numerator / x.denominator)

def add (x y : Double) : Double :=
  let n := x.signed * (y.denominator : Int) + y.signed * (x.denominator : Int)
  if n = 0 then ⟨x.negative && y.negative, 0, 0⟩
  else
    rounded ⟨decide (n < 0), n.natAbs, -((-x.exponent).toNat + (-y.exponent).toNat : Int)⟩

def percent (x : Double) : Double := rounded { x with significand := 100 * x.significand }

def tensUpTo : Nat → Nat → Nat → Nat
  | 0, _, _ => 0
  | limit + 1, n, d => if d ≤ n then 0 else tensUpTo limit (10 * n) d + 1

/-- Where the decimal point stands: right before the first digit for a place of zero. -/
def place (x : Double) : Int :=
  if x.denominator ≤ x.numerator then (Nat.toDigits 10 (x.numerator / x.denominator)).length
  else 1 - tensUpTo 400 x.numerator x.denominator

def scaled (x : Double) (places : Int) : Nat × Nat :=
  (x.numerator * Nat.pow 10 places.toNat, x.denominator * Nat.pow 10 (-places).toNat)

/-- No number has more digits than this, before and behind the point. -/
def mostDigits : Nat := 1100

def fixed (x : Double) (places : Nat) : Decimal :=
  if x.isZero then .zero
  else
    let places := min places mostDigits
    let (n, d) := x.scaled places
    .ofScaled (roundDiv n d) places

def significant (x : Double) (count : Nat) : Decimal :=
  if x.isZero then .zero
  else
    let places := (min count mostDigits : Nat) - x.place
    let (n, d) := x.scaled places
    .ofScaled (roundDiv n d) places

/-- Whether `candidate / 10 ^ places` is nearer to `x` than to its neighbours. The limit between two
numbers belongs to the even one, and the gap below a power of two is half as wide. -/
def reads (x : Double) (places : Int) (candidate : Nat) : Bool :=
  let (n, d) := x.scaled places
  let gap := Nat.pow 2 x.exponent.toNat * Nat.pow 10 places.toNat
  let holds := fun distance : Nat =>
    if x.significand % 2 = 0 then decide (distance ≤ gap) else decide (distance < gap)
  if n ≤ candidate * d then holds (2 * (candidate * d - n))
  else
    let narrow := decide (x.significand = Nat.pow 2 52) && decide (lowest < x.exponent)
    holds ((if narrow then 4 else 2) * (n - candidate * d))

/-- The decimal of so many digits that stands for `x`, if there is one; the nearest, if there are
two. -/
def shortOf? (x : Double) (count : Nat) : Option Decimal :=
  let places := count - x.place
  let (n, d) := x.scaled places
  let nearest := roundDiv n d
  let other := if nearest = n / d then nearest + 1 else n / d
  ([nearest, other].find? (x.reads places)).map (.ofScaled · places)

def shortest (x : Double) : Decimal :=
  if x.isZero then .zero
  else ((List.range 17).findSome? fun i : Nat => x.shortOf? (i + 1)).getD (x.significant 17)

/-- From this place on a number is written with an exponent. -/
def scientificFrom : Int := 16

def isScientific (d : Decimal) (limit : Int) : Bool := decide (d.point ≤ -4 ∨ limit < d.point)

def signText (x : Double) : String := if x.negative then "-" else ""

def shown (x : Double) : String :=
  let d := x.shortest
  x.signText ++ d.write ⟨isScientific d scientificFrom, d.digits.length, true, false, 'e'⟩

end Double

end ScopeLint
