import ScopeLint.Checker.Ancestry
import ScopeLint.Checker.Builtins
import ScopeLint.Path

/-! Loads, stores and deletions of names. -/
namespace ScopeLint

def Setup.isPackageFile (cfg : Setup) : Bool := Path.base cfg.filename == "__init__.py"

def Setup.isBuiltin (cfg : Setup) (key : Datum.Key) : Bool :=
  (match key with
    | .text name => builtinNames.contains name
    | _ => false) || cfg.builtins.contains key

namespace State

def kindOf (s : State) (id : ScopeId) : Option ScopeKind := (s.scope? id).map (·.kind)

/-- Function and module scopes lend their names to everything inside them. -/
def isLending (s : State) (id : ScopeId) : Bool :=
  s.kindOf id == some .function || s.kindOf id == some .module

def isEmptyScope (s : State) (id : ScopeId) : Bool :=
  match s.scope? id with
  | some scope => scope.entries.isEmpty
  | none => true

/-- Scopes in which a name is looked up, innermost first: the current one, the scope around it if
it is the scope of a comprehension, and all function and module scopes outside. The scope around
a comprehension is passed over if it holds the same bindings as the nearest of those. No binding is
in two scopes, so that it is then this very scope, or both hold nothing. -/
def visibleScopes (s : State) : Except Fault (List ScopeId) :=
  match s.stack with
  | [] => .error .noOpenScope
  | top :: outer =>
    let lending := outer.filter s.isLending
    if s.kindOf top = some .generator then
      match lending, outer with
      | nearest :: _, below :: _ =>
        if nearest = below ∨ (s.isEmptyScope nearest ∧ s.isEmptyScope below) then
          .ok (top :: lending)
        else .ok (top :: below :: lending)
      | _, _ => .error .outOfRange
    else .ok (top :: lending)

def binding? (s : State) (id : ScopeId) (key : Datum.Key) : Option Binding :=
  (s.scope? id).bind (·.find? key)

def isStarred (s : State) (id : ScopeId) : Bool :=
  match s.scope? id with
  | some scope => scope.starred
  | none => false

/-- The binding under `key` in an outer function or module scope that the current scope `top` has
used already, searched from the outside. -/
def usedOutside? (s : State) (top : ScopeId) (key : Datum.Key) : Option (Use × Binding) :=
  s.stack.tail.reverse.findSome? fun id =>
    if s.isLending id then
      (s.binding? id key).bind fun b =>
        b.used.bind fun use => if use.scope = top then some (use, b) else none
    else none

end State

namespace Check

/-- A load marks the nearest visible binding of the name as used; a name without one is reported,
unless a star import, the built-in names or a handler for the failure account for it. -/
def load (cfg : Setup) (v : Value) : Check Unit := do
  match v.nameOf? with
  | none => return
  | some name =>
    let s ← get
    let visible ← lift s.visibleScopes
    let key ← lift name.key
    match visible.find? fun id => (s.binding? id key).isSome with
    | some id =>
      let (top, _) ← current
      updateScope id (·.markUsed key ⟨top, v⟩)
      record (.loaded id key ⟨top, v⟩)
    | none =>
      if visible.any s.isStarred || cfg.isBuiltin key then return
      if key = .text "__path__" ∧ cfg.isPackageFile then return
      if !(← lift ((s.guards.headD (.list [])).lists (.text "NameError"))) then
        report cfg .undefinedName v [name]

/-- Whether `b` would hide the unused import `old` without need. -/
def hides (b old : Binding) : Bool :=
  old.isUnusedImport &&
    match b.kind, old.kind with
    | .importation full, .importation other => full == other
    | _, _ => true

def reportHiddenIn (cfg : Setup) (n : Node) (key : Datum.Key) (b : Binding) (id : ScopeId) :
    Check Bool := do
  match (← get).binding? id key with
  | some old =>
    if hides b old then
      if ← differentForks cfg n old.source then return false
      report cfg .redefinedWhileUnused (.node n) [b.name, ← datum old.source]
      return true
    else return false
  | none => return false

def reportHidden (cfg : Setup) (n : Node) (key : Datum.Key) (b : Binding) :
    List ScopeId → Check Bool
  | [] => return false
  | id :: rest => do
    let hidden ← reportHiddenIn cfg n key b id
    return (← reportHidden cfg n key b rest) || hidden

def reportListComp (cfg : Setup) (n : Node) (b : Binding) (existing : Option Binding) :
    Check Unit := do
  match existing with
  | some old =>
    let s ← get
    if s.hasAncestor b.source ["ListComp"] && !s.hasAncestor old.source ["For", "ListComp"] then
      if !(← differentForks cfg n old.source) then
        report cfg .redefinedInListComp (.node n) [b.name, ← datum old.source]
  | none => return

def keptDefinition? (cfg : Setup) (n : Node) (existing : Option Binding) :
    Check (Option Binding) := do
  match existing with
  | some old =>
    if old.isUnusedDefinition then
      if ← differentForks cfg n old.source then return none else return some old
    else return none
  | none => return none

/-- Reports what a binding at `n` hides: unused imports on the stack, or else a name that a list
comprehension takes. In the body of a class no import is hidden. -/
def reportRebinding (cfg : Setup) (n : Node) (key : Datum.Key) (b : Binding) (kind : ScopeKind)
    (existing : Option Binding) : Check Unit := do
  let hidden ←
    if kind != .classBody then reportHidden cfg n key b (← get).stack else pure false
  if !hidden then reportListComp cfg n b existing

/-- Puts a binding into the scope `top`. An unused definition of the name on the same branch is kept,
and the new binding reported. -/
def place (cfg : Setup) (n : Node) (key : Datum.Key) (b : Binding) (top : ScopeId)
    (existing : Option Binding) : Check Unit := do
  match ← keptDefinition? cfg n existing with
  | some old =>
    report cfg .redefinedWhileUnused (.node n) [b.name, ← datum old.source]
    record (.refused top key n b)
  | none =>
    updateScope top (·.insert key b)
    record (.bound top key n b)

def bind (cfg : Setup) (n : Node) (b : Binding) (reportsHidden : Bool) : Check Unit := do
  let (top, scope) ← current
  let key ← lift b.name.key
  let existing := scope.find? key
  if reportsHidden then reportRebinding cfg n key b scope.kind existing
  place cfg n key b top existing

def storeKind (scope : Scope) (parent : Option Node) (key : Datum.Key) (n : Node) :
    Except Fault (BindingKind × Value) :=
  match parent with
  | none => .ok (.assignment, .node n)
  | some p =>
    if ["For", "comprehension", "Tuple", "List"].contains p.kind then .ok (.plain, .node n)
    else if key = .text "__all__" ∧ scope.kind = .module then
      (p.get "value").map fun v => (.exported, v)
    else .ok (.assignment, .node n)

def reportUsedBefore (cfg : Setup) (top : ScopeId) (scope : Scope) (key : Datum.Key)
    (name : Datum) : Check Unit := do
  if scope.kind = .function ∧ !scope.has key ∧ !scope.isGlobal key then
    match (← get).usedOutside? top key with
    | some (use, b) => report cfg .undefinedLocal use.node [name, ← datum b.source]
    | none => return

/-- A store binds the name. It stays used if it was. -/
def store (cfg : Setup) (n : Node) : Check Unit := do
  match (Value.node n).nameOf? with
  | none => return
  | some name =>
    let (top, scope) ← current
    let key ← lift name.key
    reportUsedBefore cfg top scope key name
    let (kind, source) ← lift (storeKind scope ((← get).parent? n) key n)
    bind cfg n ⟨name, kind, source, (scope.find? key).bind (·.used)⟩ true

/-- A deletion forgets the name, or its declaration as global. -/
def delete (cfg : Setup) (n : Node) : Check Unit := do
  match (Value.node n).nameOf? with
  | none => return
  | some name =>
    let (top, scope) ← current
    let key ← lift name.key
    if scope.kind = .function ∧ scope.isGlobal key then
      updateScope top (·.forgetGlobal key)
    else if scope.has key then
      updateScope top (·.erase key)
      record (.deleted top key)
    else report cfg .undefinedName (.node n) [name]

end Check

end ScopeLint
