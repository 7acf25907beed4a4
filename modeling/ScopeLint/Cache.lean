/-! What has been found out already, the latest asked for first. Only so much is kept. -/
namespace ScopeLint

structure Cache (κ α : Type) where
  entries : List (κ × α)

namespace Cache

variable {κ α : Type} [BEq κ]

def capacity : Nat := 128

def empty : Cache κ α := ⟨[]⟩

def find? (c : Cache κ α) (key : κ) : Option α := c.entries.lookup key

def touch (c : Cache κ α) (key : κ) : Cache κ α :=
  match c.find? key with
  | some a => ⟨(key, a) :: c.entries.filter fun e => !(e.1 == key)⟩
  | none => c

def insert (c : Cache κ α) (key : κ) (a : α) : Cache κ α :=
  ⟨((key, a) :: c.entries).take capacity⟩

def modify (c : Cache κ α) (key : κ) (f : α → α) : Cache κ α :=
  ⟨c.entries.map fun e => if e.1 == key then (e.1, f e.2) else e⟩

end Cache

end ScopeLint
