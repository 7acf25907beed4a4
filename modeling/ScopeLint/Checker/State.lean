import ScopeLint.Binding
import ScopeLint.Diagnostic.Basic

/-! The state of a check. Scopes are kept by number in the order in which they were opened, since
the saved stacks of deferred work share them. -/
namespace ScopeLint

inductive Dialect where
  /-- Parameters may be tuples; `try` with both parts is one node. -/
  | two
  /-- As `two`, with `try`-`except` and `try`-`finally` as nodes of their own. -/
  | twoSeven
  /-- Annotations of starred parameters are fields of the parameter list. -/
  | threeThree
  | threeFour
  deriving DecidableEq

namespace Dialect

def isTwo : Dialect → Bool
  | .two | .twoSeven => true
  | _ => false

def tryKind : Dialect → String
  | .twoSeven => "TryExcept"
  | _ => "Try"

end Dialect

inductive Outcome where
  | tree (n : Node)
  /-- The text cannot be read: message, line, offset and source line, as far as they are known. -/
  | syntaxError (message line offset text : Datum)
  | failure (kind text : String)

/-- What is made of a source that a table lists. Nothing is made of any other. -/
def Outcome.ofTable (table : List (String × Outcome)) (source : String) : Outcome :=
  (table.lookup source).getD (.failure "" "")

structure Remark where
  kind : Kind
  args : List Datum
  named : Named

structure Setup where
  root : Node
  filename : String
  dialect : Dialect
  ignored : Datum
  ignoredLines : Datum
  verbose : Datum
  doctests : Bool
  traced : Bool
  /-- Names that need no binding, beside those that every module can use. -/
  builtins : List Datum.Key
  /-- The compiler for doctests. -/
  compile : String → Outcome
  remarks : List (Except Fault (List Remark))

/-- What a visit leaves at a node: its depth then, and the nodes above it, nearest first. -/
structure Mark where
  level : Nat
  ancestors : List Node

/-- A move of positions: what is added to lines and to columns. A part may be missing, which is a
fault for the first node that the part is needed for. -/
structure Shift where
  line : Except Fault Datum
  column : Except Fault Datum

namespace Shift

def of (line column : Int) : Shift := ⟨.ok (.int line), .ok (.int column)⟩

/-- The move that a value stands for: its first two items are the parts. -/
def ofDatum (d : Datum) : Option Shift :=
  if d.truthy then some ⟨d.item 0, d.item 1⟩ else none

end Shift

inductive Task where
  | body (function : Node) (parameters : List Datum)
  | doctests (definition : Node)
  | assignments
  | returns (function : Node)

structure Deferred where
  task : Task
  stack : List ScopeId
  shift : Option Shift

inductive Queue where
  | functions
  | assignments
  deriving DecidableEq

inductive Event where
  | loaded (scope : ScopeId) (key : Datum.Key) (use : Use)
  | bound (scope : ScopeId) (key : Datum.Key) (n : Node) (b : Binding)
  /-- The binding gave way to an unused definition in the scope. -/
  | refused (scope : ScopeId) (key : Datum.Key) (n : Node) (b : Binding)
  | deleted (scope : ScopeId) (key : Datum.Key)
  | compared (n m : Node) (apart : Bool)
  /-- The body of a function has been gone through in the scope. -/
  | body (function : Node) (scope : ScopeId)
  | reported (k : Kind) (args : List Datum)

structure State where
  scopes : Array Scope
  stack : List ScopeId
  dead : Array ScopeId
  functions : Option (Array Deferred)
  assignments : Option (Array Deferred)
  borrowed : Option (Queue × Nat)
  messages : Array Diagnostic
  /-- Names of the exceptions caught around the current node, innermost handler list first. -/
  guards : List Datum
  futuresAllowed : Bool
  depth : Nat
  shift : Option Shift
  marks : List (Nat × Mark)
  moved : List (Nat × Position)
  nextNode : Nat
  trace : Array String
  /-- What has happened so far, latest first. It is on record only: nothing depends on it. -/
  history : List Event

namespace State

/-- Before the walk: one module scope, both queues open. Nodes from `nextNode` on are free. -/
def initial (nextNode : Nat) : State where
  scopes := #[Scope.empty .module]
  stack := [0]
  dead := #[]
  functions := some #[]
  assignments := some #[]
  borrowed := none
  messages := #[]
  guards := [.list []]
  futuresAllowed := true
  depth := 0
  shift := none
  marks := []
  moved := []
  nextNode
  trace := #[]
  history := []

def scope? (s : State) (id : ScopeId) : Option Scope := s.scopes[id]?

def mark? (s : State) (n : Node) : Option Mark := s.marks.lookup n.id

def position? (s : State) (n : Node) : Option Position :=
  match s.moved.lookup n.id with
  | some p => some p
  | none => n.position

def queue (s : State) : Queue → Option (Array Deferred)
  | .functions => s.functions
  | .assignments => s.assignments

def setQueue (s : State) (q : Queue) (entries : Option (Array Deferred)) : State :=
  match q with
  | .functions => { s with functions := entries }
  | .assignments => { s with assignments := entries }

end State

/-- A step of a check. A step that fails keeps what it did before. -/
abbrev Check := EStateM Fault State

namespace Check

def lift {α : Type} : Except Fault α → Check α
  | .ok a => pure a
  | .error e => throw e

def record (e : Event) : Check Unit := modify fun s => { s with history := e :: s.history }

def current : Check (ScopeId × Scope) := do
  let s ← get
  match s.stack with
  | [] => throw .outOfRange
  | id :: _ =>
    match s.scope? id with
    | some scope => return (id, scope)
    | none => throw .outOfRange

def updateScope (id : ScopeId) (f : Scope → Scope) : Check Unit :=
  modify fun s => { s with scopes := s.scopes.modify id f }

def pushScope (kind : ScopeKind) : Check Unit :=
  modify fun s =>
    { s with scopes := s.scopes.push (Scope.empty kind), stack := s.scopes.size :: s.stack }

def popScope : Check Unit := do
  let s ← get
  match s.stack with
  | [] => throw .emptyPop
  | id :: rest => set { s with stack := rest, dead := s.dead.push id }

def inScope (kind : ScopeKind) (act : Check Unit) : Check Unit := do
  pushScope kind
  act
  popScope

def underGuard (names : Datum) (act : Check Unit) : Check Unit := do
  modify fun s => { s with guards := names :: s.guards }
  act
  modify fun s => { s with guards := s.guards.tail }

def defer (q : Queue) (task : Task) : Check Unit := do
  let s ← get
  match s.queue q with
  | some entries => set (s.setQueue q (some (entries.push ⟨task, s.stack, s.shift⟩)))
  | none => throw (.missingAttribute "NoneType" "append")

/-- A value as the subject or argument of a diagnostic, with its position as it is now. -/
def datum (v : Value) : Check Datum := do
  match v with
  | .node n =>
    match (← get).position? n with
    | some p =>
      return .object n.kind (some n.id) [("lineno", p.line), ("col_offset", p.column)]
    | none => return v.datum
  | v => return v.datum

def isIgnored (cfg : Setup) (k : Kind) : Except Fault Bool := do
  if ← cfg.ignored.lists k.series then return true
  if ← cfg.ignored.lists k.code then return true
  cfg.ignored.lists (.text (toString k.number))

def reservedArguments : List String := ["self", "message_class"]

def reportWith (cfg : Setup) (k : Kind) (args : List Datum) (named : Named) : Check Unit := do
  if named.any fun e => reservedArguments.contains e.1 then throw .wrongType
  record (.reported k args)
  if !(← lift (isIgnored cfg k)) then
    let d ← lift (k.compose (.text cfg.filename) args (("verbose", cfg.verbose) :: named))
    if !(← lift (cfg.ignoredLines.lists d.line)) then
      modify fun s => { s with messages := s.messages.push d }

def report (cfg : Setup) (k : Kind) (subject : Value) (args : List Datum) : Check Unit := do
  reportWith cfg k ((← datum subject) :: args) []

end Check

end ScopeLint
