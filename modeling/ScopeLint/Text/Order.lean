/-! The order of texts by the numbers of their characters. -/
namespace ScopeLint.Text

def precedes : List Char → List Char → Bool
  | _, [] => false
  | [], _ :: _ => true
  | a :: as, b :: bs => a.toNat < b.toNat || (a.toNat == b.toNat && precedes as bs)

end ScopeLint.Text
