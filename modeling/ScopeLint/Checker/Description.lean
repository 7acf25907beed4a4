import ScopeLint.Checker.State

/-! One-line descriptions of bindings and scopes. -/
namespace ScopeLint

namespace State

def lineOf (s : State) (v : Value) : Except Fault Datum :=
  match v with
  | .node n =>
    match s.position? n with
    | some p => .ok p.line
    | none => .error (.missingAttribute n.kind "lineno")
  | v => .error (.missingAttribute v.typeName "lineno")

def describeBinding (s : State) (b : Binding) : Except Fault String := do
  let line ← s.lineOf b.source
  return "<" ++ b.kind.label ++ " object " ++ b.name.shown ++ " from line " ++
    line.shown ++ " at 0x>"

def describeScope (s : State) (scope : Scope) : Except Fault String := do
  let entries ← scope.entries.mapM fun e => do
    return e.name.shown ++ ": " ++ (← s.describeBinding e.binding)
  return "<" ++ scope.kind.label ++ " at 0x \x7b" ++ Text.join ", " entries ++ "\x7d>"

end State

end ScopeLint
