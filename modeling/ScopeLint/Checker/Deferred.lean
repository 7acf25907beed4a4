import ScopeLint.Checker.Walk
import ScopeLint.Doctest

/-! Work that waits until the whole tree has been seen: bodies of functions, doctests, and the
checks on finished functions. As the rules are, tasks are given the visit for what they walk. -/
namespace ScopeLint

/-- Whether the body of `v` holds a `yield`, outside nested functions. The fuel bounds the
nesting. -/
def isGeneratorWithin : Nat → Value → Except Fault Bool
  | 0, _ => .error .endless
  | fuel + 1, v => do
    match ← v.get "body" with
    | .list items =>
      items.anyM fun item => do
        if item.isKind "Assign" || item.isKind "Expr" then
          return (← item.get "value").isKind "Yield"
        else if !item.isKind "FunctionDef" && (item.field? "body").isSome then
          isGeneratorWithin fuel item
        else return false
    | _ => return false

def isGenerator (v : Value) : Except Fault Bool := isGeneratorWithin v.size v

def firstM {α β : Type} (f : α → Except Fault (Option β)) : List α → Except Fault (Option β)
  | [] => .ok none
  | a :: rest => do
    match ← f a with
    | some b => return some b
    | none => firstM f rest

def returnWithin : Nat → Value → Except Fault (Option Value)
  | 0, _ => .error .endless
  | fuel + 1, v => do
    let items ← (← v.get "body").items
    firstM (fun item => do
      let found ← if item.isKind "Return" then pure (← item.get "value").truthy else pure false
      if found then return some item
      else if !item.isKind "FunctionDef" && (item.field? "body").isSome then
        returnWithin fuel item
      else return none) items

def returnWithValue (v : Value) : Except Fault (Option Value) := returnWithin v.size v

namespace State

/-- The line before so many lines and one. -/
def lineAbove (line : Datum) (breaks : Nat) : Except Fault Datum := do
  (← line.add (.int (-breaks))).add (.int (-1))

/-- Content of a docstring and line before its first one; the line is right if no line of the text
is continued by a backslash. Line breaks can be counted in a text or in a list. -/
def docstring (s : State) (v : Value) : Except Fault (Option (Value × Datum)) := do
  let v ← if v.isKind "Expr" then v.get "value" else pure v
  if !v.isLiteral then return none
  match v with
  | .node n =>
    let some p := s.position? n | .error (.missingAttribute n.kind "lineno")
    match ← v.literal with
    | .text t => return some (.text t, ← lineAbove p.line (t.toList.count '\n'))
    | .list items =>
      let breaks := items.countP fun item => item.text? == some "\n"
      return some (.list items, ← lineAbove p.line breaks)
    | other => .error (.missingAttribute other.typeName "count")
  | _ => return none

/-- The docstring of a definition, if its body starts with one that is not empty. Only a text can be
searched for examples. -/
def docstringOf (s : State) (n : Node) : Except Fault (Option (String × Datum)) := do
  match (← n.itemsOf "body").head? with
  | none => return none
  | some first =>
    match ← s.docstring first with
    | some (.text t, line) => return if t = "" then none else some (t, line)
    | some (content, _) =>
      if content.truthy then .error (.missingAttribute content.typeName "expandtabs")
      else return none
    | none => return none

end State

namespace Check

def doctestPosition (docLine : Datum) (e : Example) (line offset : Datum) :
    Except Fault Datum := do
  let line ← (← docLine.add (.int e.line)).add line
  let column ← (Datum.int (e.indent + 4)).add (if offset.truthy then offset else .int 0)
  return .list [line, column]

def exampleShift (base : Shift) (docLine : Datum) (e : Example) : Except Fault Shift := do
  let line ← (← (← base.line).add docLine).add (.int e.line)
  let column ← (← (← base.column).add (.int e.indent)).add (.int 4)
  return ⟨.ok line, .ok column⟩

/-- Visits the tree of one example, moved to where the example stands. -/
def visitExample (visit : Visit) (base : Shift) (docLine : Datum) (e : Example) (tree : Node) :
    Check Unit := do
  let shift ← lift (exampleShift base docLine e)
  let (tree, next) := tree.numbered (← get).nextNode
  modify fun s => { s with nextNode := next, shift := some shift }
  visitChildren visit tree
  modify fun s => { s with shift := some base }

def runExample (cfg : Setup) (visit : Visit) (n : Node) (base : Shift) (docLine : Datum)
    (e : Example) : Check Unit := do
  match cfg.compile e.source with
  | .tree tree => visitExample visit base docLine e tree
  | .syntaxError _ line offset _ =>
    let position ← lift (doctestPosition docLine e line offset)
    reportWith cfg .doctestSyntaxError [← datum (.node n), position] []
  | .failure kind text => throw (.raised kind text)

def runDoctests (cfg : Setup) (visit : Visit) (n : Node) : Check Unit := do
  let s ← get
  match ← lift (s.docstringOf n) with
  | none => return
  | some (text, line) =>
    match Doctest.examples? text with
    | none => return
    | some examples =>
      inScope .function do
        examples.forM (runExample cfg visit n (s.shift.getD (.of 0 0)) line)

/-- The body of a function, which is a list of statements or one expression. -/
def visitBody (visit : Visit) (n : Node) : Check Unit := do
  match ← lift (n.get "body") with
  | .list items => visitAll visit n items
  | v => visit v n

def bindParameters (cfg : Setup) (n : Node) (parameters : List Datum) : Check Unit :=
  parameters.forM fun name => bind cfg n (.fresh name .argument (.node n)) false

def finishBody (cfg : Setup) (n : Node) : Check Unit := do
  let (top, _) ← current
  defer .assignments .assignments
  record (.body n top)
  if cfg.dialect.isTwo then defer .assignments (.returns n)

def runBody (cfg : Setup) (visit : Visit) (n : Node) (parameters : List Datum) : Check Unit :=
  inScope .function do
    bindParameters cfg n parameters
    visitBody visit n
    finishBody cfg n

def reportUnusedAssignments (cfg : Setup) : Check Unit := do
  let (_, scope) ← current
  if scope.kind = .function then
    scope.unusedAssignments.forM fun e => report cfg .unusedVariable e.binding.source [e.name]
  else throw (.missingAttribute scope.kind.label "unusedAssignments")

def reportReturns (cfg : Setup) (n : Node) : Check Unit := do
  if ← lift (isGenerator (.node n)) then
    match ← lift (returnWithValue (.node n)) with
    | some v => report cfg .returnInGenerator v []
    | none => return

def runTask (cfg : Setup) (visit : Visit) : Task → Check Unit
  | .body n parameters => runBody cfg visit n parameters
  | .doctests n => runDoctests cfg visit n
  | .assignments => reportUnusedAssignments cfg
  | .returns n => reportReturns cfg n

/-- Runs entries of a queue from number `i` on, each with the stack and shift saved for it. -/
def runEntries (cfg : Setup) (visit : Visit) (q : Queue) : Nat → List Deferred → Check Unit
  | _, [] => return
  | i, d :: rest => do
    modify fun s => { s with stack := d.stack, shift := d.shift, borrowed := some (q, i) }
    runTask cfg visit d.task
    runEntries cfg visit q (i + 1) rest

def settle : Check Unit :=
  modify fun s =>
    match s.borrowed with
    | some (q, i) =>
      s.setQueue q ((s.queue q).map fun entries =>
        entries.modify i fun d => { d with stack := s.stack })
    | none => s

/-- Runs the entries after the first `done` ones, then those that were put off meanwhile. The fuel
bounds how often that happens. -/
def drainWithin (cfg : Setup) (visit : Visit) (q : Queue) : Nat → Nat → Check Unit
  | fuel, done => do
    match (← get).queue q with
    | none => throw .wrongType
    | some entries =>
      let todo := entries.toList.drop done
      if todo.isEmpty then return
      match fuel with
      | 0 => throw .endless
      | fuel + 1 =>
        runEntries cfg visit q done todo
        drainWithin cfg visit q fuel (done + todo.length)

end Check

def NodeOf.literal? (n : Node) : Option String :=
  if (Value.node n).isLiteral then (Value.node n).literal.toOption.bind Value.text? else none

def NodeOf.literals (n : Node) : List String := n.nodes.filterMap NodeOf.literal?

def NodeOf.examples (n : Node) : List Example :=
  n.literals.flatMap fun text => (Doctest.examples? text).getD []

/-- How deep functions can be nested in a node, and in what is compiled for its texts through so many
docstrings, one within the other. -/
def NodeOf.nesting (compile : String → Outcome) : Nat → Node → Nat
  | 0, n => n.nodes.countP isFunction
  | level + 1, n =>
    n.nodes.countP isFunction + (n.examples.map fun e =>
      match compile e.source with
      | .tree tree => nesting compile level tree + 1
      | _ => 0).foldr (· + ·) 0

/-- More docstrings than can be nested in a node: each is shorter than the one around it. -/
def Setup.levels (cfg : Setup) (n : Node) : Nat :=
  if cfg.doctests then
    (n.literals.map fun text => (Doctest.expandTabs 0 text.toList).length).foldr (· + ·) 0 + 1
  else 0

namespace Check

/-- More rounds than an entry can keep a queue busy. -/
def taskRounds (cfg : Setup) : Task → Nat
  | .body n _ | .doctests n => n.nesting cfg.compile (cfg.levels n)
  | .assignments | .returns _ => 0

def rounds (cfg : Setup) (entries : List Deferred) : Nat :=
  (entries.map (taskRounds cfg ·.task)).foldr (· + ·) 0 + 1

def drainWith (cfg : Setup) (visit : Visit) (q : Queue) : Check Unit := do
  let entries := ((← get).queue q).getD #[]
  drainWithin cfg visit q (rounds cfg entries.toList) 0

def drain (cfg : Setup) (q : Queue) : Check Unit := drainWith cfg (visit cfg) q

end Check

end ScopeLint
