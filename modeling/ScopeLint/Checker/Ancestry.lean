import ScopeLint.Checker.State

/-! Where nodes lie in the tree: ancestors, common ancestors, and branches of a conditional. -/
namespace ScopeLint

namespace State

def lineage (s : State) (n : Node) : List Node :=
  n :: match s.mark? n with
    | some m => m.ancestors
    | none => []

def parent? (s : State) (n : Node) : Option Node :=
  (s.mark? n).bind (·.ancestors.head?)

def level (s : State) (n : Node) : Nat :=
  match s.mark? n with
  | some m => m.level
  | none => 0

def hasAncestor (s : State) (v : Value) (kinds : List String) : Bool :=
  match v with
  | .node n => (s.lineage n).tail.any fun a => kinds.contains a.kind
  | _ => false

/-- The first meeting of two lineages when the deeper node climbs, or both if they are at one
level; `stop` ends the climb. The fuel bounds the number of climbs. -/
def meetWithin (s : State) (stop : Node) : Nat → List Node → List Node → Option Node
  | fuel, l :: ls, r :: rs =>
    if l.id = r.id then some l
    else if stop.id = l.id ∨ stop.id = r.id then some stop
    else if ls.isEmpty ∨ rs.isEmpty then none
    else
      match fuel with
      | 0 => none
      | fuel + 1 =>
        if s.level r < s.level l then meetWithin s stop fuel ls (r :: rs)
        else if s.level l < s.level r then meetWithin s stop fuel (l :: ls) rs
        else meetWithin s stop fuel ls rs
  | _, _, _ => none

def commonAncestor (s : State) (stop l r : Node) : Option Node :=
  let left := s.lineage l
  let right := s.lineage r
  s.meetWithin stop (left.length + right.length) left right

/-- Whether the climbs from `n` and from one of the `ancestors` meet before `stop`, which is the
root unless it is given. -/
def descendantOf (s : State) (root n : Node) (ancestors : List Value) (stop : Option Node) : Bool :=
  ancestors.any fun a =>
    match a with
    | .node a =>
      match s.commonAncestor (stop.getD root) n a with
      | some m => !(stop.any fun p => p.id = m.id)
      | none => false
    | _ => n.id = root.id && stop.isNone

def onFork (s : State) (root parent l r : Node) (branch : List Value) : Bool :=
  s.descendantOf root l branch (some parent) != s.descendantOf root r branch (some parent)

def forks (d : Dialect) (n : Node) : Except Fault (List Value) := do
  if n.kind = "If" then
    return [← n.get "body", ← n.get "orelse"]
  else if n.kind = d.tryKind then
    let body ← (← n.get "body").add (← n.get "orelse")
    let handlers ← n.itemsOf "handlers"
    return body :: handlers.map fun h => .list [h]
  else if n.kind = "TryFinally" ∧ d = .twoSeven then
    return [← n.get "body"]
  else return []

def differentForks (s : State) (cfg : Setup) (l r : Node) : Except Fault Bool :=
  match s.commonAncestor cfg.root l r with
  | some a => do
    (← forks cfg.dialect a).anyM fun branch => do
      return s.onFork cfg.root a l r (← branch.items)
  | none => .ok false

end State

namespace Check

def differentForks (cfg : Setup) (n : Node) (v : Value) : Check Bool := do
  match v with
  | .node m =>
    let apart ← lift ((← get).differentForks cfg n m)
    record (.compared n m apart)
    return apart
  | _ => return false

end Check

end ScopeLint
