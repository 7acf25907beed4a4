import ScopeLint.Fault
import ScopeLint.Number.Double
import ScopeLint.Text.Lines
import ScopeLint.Text.Order

/-! Values without a fixed type: names, settings, and the arguments that templates are filled
with. -/
namespace ScopeLint

inductive Datum where
  | null
  | bool (b : Bool)
  | int (n : Int)
  | real (x : Double)
  | text (s : String)
  | list (items : List Datum)
  | dict (entries : List (String × Datum))
  /-- A thing with named attributes. Only things with a number of their own are equal to anything,
  which is themselves. -/
  | object (kind : String) (identity : Option Nat) (attributes : List (String × Datum))

namespace Datum

instance : Inhabited Datum := ⟨.null⟩

def typeName : Datum → String
  | .null => "NoneType"
  | .bool _ => "bool"
  | .int _ => "int"
  | .real _ => "float"
  | .text _ => "str"
  | .list _ => "list"
  | .dict _ => "dict"
  | .object kind _ _ => kind

def isNull : Datum → Bool
  | .null => true
  | _ => false

def text? : Datum → Option String
  | .text s => some s
  | _ => none

/-- Null, zero and what is empty count as false. -/
def truthy : Datum → Bool
  | .null => false
  | .bool b => b
  | .int n => n != 0
  | .real x => !x.isZero
  | .text s => s != ""
  | .list items => !items.isEmpty
  | .dict entries => !entries.isEmpty
  | .object _ _ _ => true

def typeKind : String := "type"

mutual

def shown : Datum → String
  | .null => "None"
  | .bool true => "True"
  | .bool false => "False"
  | .int n => toString n
  | .real x => x.shown
  | .text s => Text.quoted s
  | .list items => "[" ++ Text.join ", " (shownItems items) ++ "]"
  | .dict entries => "\x7b" ++ Text.join ", " (shownEntries entries) ++ "\x7d"
  | .object kind identity attributes =>
    match identity, attributes.lookup "__name__" with
    | none, some (.text name) => "<class " ++ Text.quoted name ++ ">"
    | none, _ => "<" ++ kind ++ ">"
    | some _, _ => "<ast." ++ kind ++ " object at 0x>"

def shownItems : List Datum → List String
  | [] => []
  | d :: rest => shown d :: shownItems rest

def shownEntries : List (String × Datum) → List String
  | [] => []
  | e :: rest => shownEntry e :: shownEntries rest

def shownEntry : String × Datum → String
  | (key, d) => Text.quoted key ++ ": " ++ shown d

end

/-- The value as it stands in a sentence: texts without quotes. -/
def plain : Datum → String
  | .text s => s
  | d => d.shown

def integer? : Datum → Option Int
  | .int n => some n
  | .bool b => some (if b then 1 else 0)
  | _ => none

def number? : Datum → Option Double
  | .real x => some x
  | d => d.integer?.map .ofInt

mutual

/-- Equality of values. The truth values count as one and zero, and numbers are equal if they are
the same number. -/
def same : Datum → Datum → Bool
  | .null, .null => true
  | .text s, .text t => s == t
  | .int m, .int n => m == n
  | .list xs, .list ys => sameItems xs ys
  | .dict xs, .dict ys => xs.length == ys.length && sameEntries xs ys
  | .object _ (some i) _, .object _ (some j) _ => i == j
  | a, b =>
    match a.number?, b.number? with
    | some x, some y => x.equals y
    | _, _ => false

def sameItems : List Datum → List Datum → Bool
  | [], [] => true
  | x :: xs, y :: ys => same x y && sameItems xs ys
  | _, _ => false

def sameEntries : List (String × Datum) → List (String × Datum) → Bool
  | [], _ => true
  | e :: rest, others => sameEntry e others && sameEntries rest others

def sameEntry : String × Datum → List (String × Datum) → Bool
  | (key, d), others =>
    match others.lookup key with
    | some other => same d other
    | none => false

end

/-- What tells values apart that can never change: numbers by what they amount to, of whatever type
they are, and texts by their characters. -/
inductive Key where
  | null
  | number (numerator : Int) (denominator : Nat)
  | text (s : String)
  | thing (identity : Nat)
  | other (kind : String)
  deriving DecidableEq

/-- The key of a value. Lists and maps can change, and have none. -/
def key : Datum → Except Fault Key
  | .null => .ok .null
  | .bool b => .ok (.number (if b then 1 else 0) 1)
  | .int n => .ok (.number n 1)
  | .real x => .ok (.number x.ratio.1 x.ratio.2)
  | .text s => .ok (.text s)
  | .object _ (some i) _ => .ok (.thing i)
  | .object kind none _ => .ok (.other kind)
  | .list _ | .dict _ => .error .wrongType

def hasKey (k : Key) (d : Datum) : Bool :=
  match d.key with
  | .ok other => other == k
  | .error _ => false

def among (items : List Datum) (x : Datum) : Bool := items.any (same · x)

/-- Each value once, where it comes first. -/
def distinct (items : List Datum) : List Datum :=
  items.foldl (fun known x => if among known x then known else known ++ [x]) []

/-- The values as a set, which nothing that can change may be in. The order of first mention stands for
that of the set, which is not laid down. -/
def setOf (items : List Datum) : Except Fault (List Datum) := do
  let _ ← items.mapM key
  return distinct items

mutual

/-- Whether one value comes before another, if the two can be compared. Lists are compared by their
first items that differ. -/
def before? : Datum → Datum → Option Bool
  | .text s, .text t => some (Text.precedes s.toList t.toList)
  | .list xs, .list ys => beforeItems? xs ys
  | a, b =>
    match a.number?, b.number? with
    | some x, some y => some (x.below y)
    | _, _ => none

def beforeItems? : List Datum → List Datum → Option Bool
  | [], ys => some (!ys.isEmpty)
  | _ :: _, [] => some false
  | x :: xs, y :: ys => if same x y then beforeItems? xs ys else before? x y

end

/-- Whether `d` lists `x`: an item of a list, a key of a map, or a part of a text. -/
def lists (d x : Datum) : Except Fault Bool :=
  match d, x with
  | .list items, x => .ok (among items x)
  | .dict entries, x => do
    let k ← x.key
    return entries.any fun e => k == .text e.1
  | .text whole, .text part => .ok (Text.occursIn part.toList whole.toList)
  | _, _ => .error .wrongType

/-- What a loop over the value runs through: items of a list, keys of a map, characters of a
text. -/
def items : Datum → Except Fault (List Datum)
  | .list items => .ok items
  | .dict entries => .ok (entries.map fun e => .text e.1)
  | .text s => .ok (s.toList.map fun c => .text (String.singleton c))
  | _ => .error .wrongType

def item (d : Datum) (n : Nat) : Except Fault Datum :=
  match d with
  | .list items =>
    match items[n]? with
    | some x => .ok x
    | none => .error .outOfRange
  | .text s =>
    match s.toList[n]? with
    | some c => .ok (.text (String.singleton c))
    | none => .error .outOfText
  | .dict _ => .error (.missingKey (toString n))
  | _ => .error .wrongType

def entry (d : Datum) (key : String) : Except Fault Datum :=
  match d with
  | .dict entries =>
    match entries.lookup key with
    | some x => .ok x
    | none => .error (.missingKey (Text.quoted key))
  | _ => .error .wrongType

def ofType (name : String) : Datum := .object typeKind none [("__name__", .text name)]

def numberMember? (d : Datum) (name : String) : Option Datum :=
  match d, d.integer?, name with
  | _, some n, "real" | _, some n, "numerator" => some (.int n)
  | _, some _, "imag" => some (.int 0)
  | _, some _, "denominator" => some (.int 1)
  | .real x, _, "real" => some (.real x)
  | .real _, _, "imag" => some (.real (.ofInt 0))
  | _, _, _ => none

def ownMember? (d : Datum) (name : String) : Option Datum :=
  match d with
  | .object _ _ attributes => attributes.lookup name
  | d => d.numberMember? name

def member (d : Datum) (name : String) : Except Fault Datum :=
  match d.ownMember? name, d with
  | some a, _ => .ok a
  | none, .object _ none [("__name__", .text type)] =>
    if name = "__class__" then .ok (ofType typeKind) else .error (.missingOfType type name)
  | none, d =>
    if name = "__class__" then .ok (ofType d.typeName)
    else .error (.missingAttribute d.typeName name)

/-- A sum of numbers, or two texts or lists end to end. -/
def add (a b : Datum) : Except Fault Datum :=
  match a, b with
  | .text s, .text t => .ok (.text (s ++ t))
  | .list xs, .list ys => .ok (.list (xs ++ ys))
  | a, b =>
    match a.integer?, b.integer? with
    | some m, some n => .ok (.int (m + n))
    | _, _ =>
      match a.number?, b.number? with
      | some x, some y => .ok (.real (x.rounded.add y.rounded))
      | _, _ => .error .wrongType

end Datum

end ScopeLint
