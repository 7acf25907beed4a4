/-! Tables of character classes: how many code points from zero on are out and in, by turns. -/
namespace ScopeLint.Text

/-- Whether the code point that comes after `n` others is in, where the turn is `inside`. -/
def inTurns (inside : Bool) : List Nat → Nat → Bool
  | [], _ => false
  | turn :: rest, n => if n < turn then inside else inTurns (!inside) rest (n - turn)

def inRanges (table : List Nat) (c : Char) : Bool := inTurns false table c.toNat

end ScopeLint.Text
