import ScopeLint.Signature

/-! Bindings of names, and scopes that hold them in the order of their first binding. -/
namespace ScopeLint

abbrev ScopeId := Nat

structure Use where
  scope : ScopeId
  node : Value

inductive BindingKind where
  | plain
  | importation (full : String)
  | argument
  | assignment
  | definition
  | function (signature : Signature)
  | classDefinition
  | exported

namespace BindingKind

def isImportation : BindingKind → Bool
  | .importation _ => true
  | _ => false

def isDefinition : BindingKind → Bool
  | .definition | .function _ | .classDefinition => true
  | _ => false

def isAssignment : BindingKind → Bool
  | .assignment => true
  | _ => false

def isExported : BindingKind → Bool
  | .exported => true
  | _ => false

def label : BindingKind → String
  | .plain => "Binding"
  | .importation _ => "Importation"
  | .argument => "Argument"
  | .assignment => "Assignment"
  | .definition => "Definition"
  | .function _ => "FunctionDefinition"
  | .classDefinition => "ClassDefinition"
  | .exported => "ExportBinding"

end BindingKind

structure Binding where
  name : Datum
  kind : BindingKind
  source : Value
  used : Option Use

namespace Binding

def fresh (name : Datum) (kind : BindingKind) (source : Value) : Binding :=
  ⟨name, kind, source, none⟩

/-- An import of a dotted name binds its first part. -/
def importation (full : String) (source : Value) : Binding :=
  fresh (.text (String.ofList (full.toList.takeWhile (· != '.')))) (.importation full) source

def isUsed (b : Binding) : Bool := b.used.isSome

def isUnusedImport (b : Binding) : Bool := b.kind.isImportation && !b.isUsed

def isUnusedDefinition (b : Binding) : Bool := b.kind.isDefinition && !b.isUsed

def exports (b : Binding) : Except Fault (List Datum) :=
  if b.source.isKind "List" then do
    let items ← (← b.source.get "elts").items
    (items.filter Value.isLiteral).mapM fun v => return (← v.literal).datum
  else .ok []

end Binding

inductive ScopeKind where
  | module
  | function
  | classBody
  | generator
  deriving DecidableEq

def ScopeKind.label : ScopeKind → String
  | .module => "ModuleScope"
  | .function => "FunctionScope"
  | .classBody => "ClassScope"
  | .generator => "GeneratorScope"

structure Entry where
  key : Datum.Key
  name : Datum
  binding : Binding

structure Scope where
  kind : ScopeKind
  entries : List Entry
  /-- A star import makes every name possible. -/
  starred : Bool
  /-- Names declared to belong to an outer scope; kept for function scopes. -/
  globals : List Datum
  usesLocals : Bool

namespace Scope

/-- Local names that tools read, and that count as used. -/
def alwaysUsed : List String :=
  ["__tracebackhide__", "__traceback_info__", "__traceback_supplement__"]

def empty (kind : ScopeKind) : Scope := ⟨kind, [], false, alwaysUsed.map .text, false⟩

def bindings (s : Scope) : List Binding := s.entries.map (·.binding)

def find? (s : Scope) (key : Datum.Key) : Option Binding :=
  (s.entries.find? (·.key == key)).map (·.binding)

def has (s : Scope) (key : Datum.Key) : Bool := (s.find? key).isSome

/-- Rebinding keeps the place of a name, a new name goes to the end. -/
def insert (s : Scope) (key : Datum.Key) (b : Binding) : Scope :=
  { s with entries :=
      if s.has key then
        s.entries.map fun e => if e.key == key then { e with binding := b } else e
      else s.entries ++ [⟨key, b.name, b⟩] }

def erase (s : Scope) (key : Datum.Key) : Scope :=
  { s with entries := s.entries.filter (·.key != key) }

def markUsed (s : Scope) (key : Datum.Key) (use : Use) : Scope :=
  { s with entries := s.entries.map fun e =>
      if e.key == key then { e with binding := { e.binding with used := some use } } else e }

def isGlobal (s : Scope) (key : Datum.Key) : Bool := s.globals.any (·.hasKey key)

def declareGlobal (s : Scope) (name : Datum) : Except Fault Scope := do
  let key ← name.key
  return if s.isGlobal key then s else { s with globals := s.globals ++ [name] }

def forgetGlobal (s : Scope) (key : Datum.Key) : Scope :=
  { s with globals := s.globals.filter (!·.hasKey key) }

def unusedAssignments (s : Scope) : List Entry :=
  s.entries.filter fun e =>
    !e.binding.isUsed && !s.isGlobal e.key && !s.usesLocals && e.binding.kind.isAssignment

end Scope

end ScopeLint
