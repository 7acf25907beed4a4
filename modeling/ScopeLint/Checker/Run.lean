import ScopeLint.Checker.Deferred
import ScopeLint.Settings

/-! A whole check: walk, deferred work, and the verdict on the scopes that were closed. -/
namespace ScopeLint

namespace Check

/-- Exported names that the module lacks. They are told in the order in which `Datum.setOf` lists them.
It is one of many, as a set has no order: which names are told does not depend on it. -/
def reportExports (cfg : Setup) (scope : Scope) (b : Binding) (names : List Datum) :
    Check Unit := do
  if !scope.starred && !cfg.isPackageFile then
    let missing := (← lift (Datum.setOf names)).filter fun name =>
      !scope.entries.any fun e => name.hasKey e.key
    missing.forM fun name => report cfg .undefinedExport b.source [name]

def judgeScope (cfg : Setup) (scope : Scope) : Check Unit := do
  let exported ← match scope.find? (.text "__all__") with
    | some b =>
      if b.kind.isExported then do
        let names ← lift b.exports
        reportExports cfg scope b names
        pure names
      else pure []
    | none => pure []
  (scope.bindings.filter fun b => b.isUnusedImport && !Datum.among exported b.name).forM fun b =>
    report cfg .unusedImport b.source [b.name]

def judgeDead (cfg : Setup) : Check Unit := do
  let s ← get
  s.dead.toList.forM fun id =>
    match s.scope? id with
    | some scope => judgeScope cfg scope
    | none => return

def noFile : String := "(none)"

def reportRemarks (cfg : Setup) : Check Unit :=
  if cfg.filename = noFile then return
  else cfg.remarks.forM fun said => do
    (← lift said).forM fun r => reportWith cfg r.kind r.args r.named

/-- The passes over a tree while its module is open: the walk, then the bodies and doctests that it
put off, and then the checks on finished functions. -/
def passes (cfg : Setup) (visit : Visit) : Check Unit := do
  visitChildren visit cfg.root
  drainWith cfg visit .functions
  modify fun s => { s with functions := none }
  drainWith cfg visit .assignments

def run (cfg : Setup) : Check Unit := do
  passes cfg (visit cfg)
  modify fun s => { s with assignments := none, stack := s.stack.getLast?.toList }
  popScope
  judgeDead cfg
  reportRemarks cfg

end Check

structure Request where
  tree : Node
  filename : Datum
  dialect : Dialect
  builtins : Datum
  ignoredLines : Datum
  settings : Settings
  traced : Bool
  compile : String → Outcome
  remarks : List (Except Fault (List Remark))

namespace Request

def reservedNames : List String := ["self", "tree", "filename", "builtins", "ignore_lines"]

def setup (r : Request) : Except Fault Setup := do
  if r.settings.any fun e => reservedNames.contains e.1 then .error .wrongType
  let .text filename := r.filename | .error .wrongType
  return {
    root := r.tree
    filename
    dialect := r.dialect
    ignored := ← r.settings.ignoredIn filename
    ignoredLines := r.ignoredLines
    verbose := (r.settings.lookup "verbose").getD .null
    doctests := ((r.settings.lookup "run_doctests").getD .null).truthy
    traced := r.traced
    builtins := ← if r.builtins.truthy then do (← r.builtins.items).mapM Datum.key else pure []
    compile := r.compile
    remarks := r.remarks }

/-- The state after a check, and the fault that ended it early. The nodes of the tree have to be
numbered from zero. -/
def run (r : Request) : State × Option Fault :=
  let start := State.initial r.tree.size
  match r.setup with
  | .error e => (start, some e)
  | .ok cfg =>
    match Check.run cfg start with
    | .ok _ s => (s, none)
    | .error e s => (s, some e)

end Request

end ScopeLint
