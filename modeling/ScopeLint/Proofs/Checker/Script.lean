import ScopeLint.Proofs.Checker.Acts
import ScopeLint.Proofs.Checker.Handed

/-! # Rules as scripts

What the rule for a node does is known before it is done: the names that are bound and loaded, the
values that are visited, the scopes that are opened and the work that is put off depend on the node
and on nothing else. The state decides only how each of these steps turns out. So a rule is a script,
a list of steps, and a check that gets through the rule is one that gets through the steps. -/
namespace ScopeLint

/-- A step of the rule for a node. -/
inductive Op where
  | act (a : Act)
  /-- A report of future imports, if it is too late for them. -/
  | late (names : List Value)
  /-- A binding that is used at once. -/
  | future (b : Binding)
  | visit (v : Value)
  | opens (kind : ScopeKind)
  | closes
  | guards (names : List Datum)
  | unguards
  | defers (task : Task)

namespace Op

open Check

def run (cfg : Setup) (below : Visit) (n : Node) : Op → Check Unit
  | .act a => a.run cfg
  | .late names => do
    if !(← get).futuresAllowed then
      report cfg .lateFutureImport (.node n) [.list (← names.mapM datum)]
  | .future b => do
    let (top, _) ← current
    bind cfg n { b with used := some ⟨top, .node n⟩ } true
  | .visit v => below v n
  | .opens kind => pushScope kind
  | .closes => popScope
  | .guards names => modify fun s => { s with guards := .list names :: s.guards }
  | .unguards => modify fun s => { s with guards := s.guards.tail }
  | .defers task => defer .functions task

def runAll (cfg : Setup) (below : Visit) (n : Node) (ops : List Op) : Check Unit :=
  ops.forM (run cfg below n)

variable {cfg : Setup} {below : Visit} {n : Node}

@[simp]
theorem runAll_nil : runAll cfg below n [] = pure () := rfl

theorem runAll_cons (op : Op) (ops : List Op) :
    runAll cfg below n (op :: ops) = (do op.run cfg below n; runAll cfg below n ops) := rfl

theorem runAll_append (ops more : List Op) : runAll cfg below n (ops ++ more) =
    (do runAll cfg below n ops; runAll cfg below n more) := by
  induction ops with
  | nil => rfl
  | cons op rest ih => rw [List.cons_append, runAll_cons, ih, runAll_cons, bind_assoc]

end Op

/-- A list of steps that is read off a node, and what is found out in between. -/
def Script (α : Type) : Type := Except Fault (α × List Op)

namespace Script

variable {α β : Type} {ops : List Op}

protected def pure (a : α) : Script α := .ok (a, [])

protected def bind (x : Script α) (f : α → Script β) : Script β :=
  match x with
  | .error e => .error e
  | .ok (a, ops) =>
    match f a with
    | .error e => .error e
    | .ok (b, more) => .ok (b, ops ++ more)

instance : Monad Script where
  pure := Script.pure
  bind := Script.bind

def emit (op : Op) : Script Unit := .ok ((), [op])

def lift (x : Except Fault α) : Script α := x.map (·, [])

def fail (e : Fault) : Script α := .error e

def inScope (kind : ScopeKind) (script : Script Unit) : Script Unit := do
  emit (.opens kind)
  script
  emit .closes

def underGuard (names : List Datum) (script : Script Unit) : Script Unit := do
  emit (.guards names)
  script
  emit .unguards

theorem bind_eq_ok {x : Script α} {f : α → Script β} {b : β} :
    (x >>= f : Script β) = .ok (b, ops) ↔ ∃ a first rest, x = .ok (a, first) ∧
      f a = .ok (b, rest) ∧ ops = first ++ rest := by
  change Script.bind x f = _ ↔ _
  unfold Script.bind
  cases x with
  | error e => simp
  | ok r =>
    obtain ⟨a, first⟩ := r
    dsimp only
    cases hf : f a with
    | error e =>
      constructor
      · intro h
        cases h
      · rintro ⟨a', first', rest, ha, hb, -⟩
        cases ha
        cases hf.symm.trans hb
    | ok q =>
      obtain ⟨b', rest⟩ := q
      constructor
      · rintro h
        cases h
        exact ⟨a, first, rest, rfl, hf, rfl⟩
      · rintro ⟨a', first', rest', ha, hb, rfl⟩
        cases ha
        rw [hf] at hb
        cases hb
        rfl

theorem lift_eq_ok {x : Except Fault α} {a : α} : lift x = .ok (a, ops) ↔ x = .ok a ∧ ops = [] := by
  cases x with
  | error e =>
    constructor
    · intro h
      cases h
    · rintro ⟨h, -⟩
      cases h
  | ok b =>
    constructor
    · intro h
      cases h
      exact ⟨rfl, rfl⟩
    · rintro ⟨h, rfl⟩
      cases h
      rfl

theorem exists_ok_of_forM {f : α → Script Unit} {xs : List α} {r : Unit × List Op}
    (h : xs.forM f = .ok r) : ∀ x ∈ xs, ∃ r, f x = .ok r := by
  induction xs generalizing r with
  | nil => simp
  | cons x rest ih =>
    obtain ⟨a, first, others, hx, hrest, -⟩ := bind_eq_ok.mp h
    exact List.forall_mem_cons.mpr ⟨⟨_, hx⟩, ih hrest⟩

open Check

def visits (vs : List Value) : Script Unit := .ok ((), vs.map .visit)

def visitItems (n : Node) (name : String) : Script Unit := do
  visits (← lift (n.itemsOf name))

def visitField (n : Node) (name : String) : Script Unit := do
  emit (.visit (← lift (n.get name)))

def visitChildren (n : Node) : Script Unit := visits (n.children.map .node)

def forName (n : Node) : Script Unit := do
  let context ← lift (n.get "ctx")
  if context.isKind "Load" || context.isKind "AugLoad" then
    emit (.act (.load (.node n)))
    emit (.act (.locals n))
  else if context.isKind "Store" || context.isKind "AugStore" then emit (.act (.store n))
  else if context.isKind "Del" then emit (.act (.delete n))
  else fail (.strayContext context.datum.shown)

def forLoop (n : Node) : Script Unit := do
  let target ← lift (n.get "target")
  (← lift (loopNames target.size target)).forM fun name => emit (.act (.shadowing n name))
  visitChildren n

def duplicate (n : Node) (name : Datum) : Script Unit :=
  emit (.act (.report .duplicateArgument (.node n) [name]))

def tupleParameters (n : Node) : Nat → List Datum → List Value → Script (List Datum)
  | 0, _, _ => fail .endless
  | _, names, [] => return names
  | fuel + 1, names, arg :: rest => do
    if arg.isKind "Tuple" then
      let items ← lift do (← arg.get "elts").items
      tupleParameters n fuel (← tupleParameters n fuel names items) rest
    else
      let name := (← lift (arg.get "id")).datum
      if Datum.among names name then duplicate n name
      tupleParameters n fuel (names ++ [name]) rest

def plainParameters (d : Dialect) (n : Node) (args : Value) : Script Parameters := do
  if d.isTwo then
    let items ← lift do (← args.get "args").items
    let names ← tupleParameters n (args.size + 1) [] items
    return ⟨names, [], ← lift (args.get "defaults")⟩
  else
    let all ← lift do (← (← args.get "args").add (← args.get "kwonlyargs")).items
    let both ← lift (all.mapM fun arg => do
      let annotated ← arg.get "annotation"
      return ((← arg.get "arg").datum, annotated))
    let defaults ← lift do (← args.get "defaults").add (← args.get "kw_defaults")
    return ⟨both.map (·.1), both.map (·.2), defaults⟩

def reportDuplicates (n : Node) (before : List Datum) : List Datum → Script Unit
  | [] => return
  | name :: rest => do
    if Datum.among before name then duplicate n name
    reportDuplicates n (before ++ [name]) rest

def parametersOf (cfg : Setup) (n : Node) (args : Value) : Script Parameters := do
  let ps ← plainParameters cfg.dialect n args
  let ps ← lift (starredParameter cfg n args ps "vararg")
  let ps ← lift (starredParameter cfg n args ps "kwarg")
  if n.has "returns" then
    return { ps with annotations := ps.annotations ++ [← lift (n.get "returns")] }
  return ps

def checkParameters (d : Dialect) (n : Node) (ps : Parameters) : Script Unit := do
  if !d.isTwo then
    ps.names.forM fun name => do let _ ← lift name.key
    reportDuplicates n [] ps.names

def lambda (cfg : Setup) (n : Node) : Script Unit := do
  let ps ← parametersOf cfg n (← lift (n.get "args"))
  checkParameters cfg.dialect n ps
  let outside ← lift do (← (Value.list ps.annotations).add ps.defaults).items
  visits (outside.filter Value.truthy)
  emit (.defers (.body n ps.names))

def functionDef (cfg : Setup) (n : Node) : Script Unit := do
  visitItems n "decorator_list"
  let name ← lift (n.get "name")
  let signature ← lift (Signature.ofFunction n)
  emit (.act (.bind n (.fresh name.datum (.function signature) (.node n)) true))
  lambda cfg n
  if cfg.doctests then emit (.defers (.doctests n))

def classDef (cfg : Setup) (n : Node) : Script Unit := do
  visitItems n "decorator_list"
  visitItems n "bases"
  if !cfg.dialect.isTwo then visitItems n "keywords"
  inScope .classBody do
    if cfg.doctests then emit (.defers (.doctests n))
    visitItems n "body"
  let name ← lift (n.get "name")
  emit (.act (.bind n (.fresh name.datum .classDefinition (.node n)) true))

def importNames (n : Node) : Script Unit := do
  (← lift (n.itemsOf "names")).forM fun item => do
    emit (.act (.bind n (.importation (← lift (importedName item)) (.node n)) true))

def importFromItem (n : Node) (module : Value) (item : Value) : Script Unit := do
  if (← lift (item.get "name")).text? = some "*" then emit (.act (.star n module))
  else
    let b := Binding.importation (← lift (importedName item)) (.node n)
    if module.text? = some "__future__" then emit (.future b)
    else emit (.act (.bind n b true))

def importFrom (n : Node) : Script Unit := do
  let module ← lift (n.get "module")
  if module.text? = some "__future__" then
    emit (.late (← lift do (← n.itemsOf "names").mapM fun item => item.get "name"))
  else emit (.act .lateImports)
  (← lift (n.itemsOf "names")).forM (importFromItem n module)

def tryBlock (n : Node) : Script Unit := do
  let handlers ← lift (n.itemsOf "handlers")
  let caught ← lift (handlers.mapM caughtNames)
  underGuard caught.flatten (visitItems n "body")
  n.children.forM fun c => do
    if !(← lift do (← n.get "body").holds c) then emit (.visit (.node c))

def exceptHandler (n : Node) : Script Unit := do
  if (← lift (n.get "type")).isNull then emit (.act (.report .bareExcept (.node n) []))
  if (← lift (n.get "name")).text?.isSome then emit (.act (.store n))
  visitChildren n

def ofRule (cfg : Setup) (n : Node) : Rule → Script Unit
  | .descend => visitChildren n
  | .ignore => return
  | .globalNames => emit (.act (.globals n))
  | .listComp => do
    visitItems n "generators"
    visitField n "elt"
  | .generatorExp => inScope .generator do
    visitItems n "generators"
    visitField n "elt"
  | .dictComp => inScope .generator do
    visitItems n "generators"
    visitField n "key"
    visitField n "value"
  | .forLoop => forLoop n
  | .name => forName n
  | .call => do
    emit (.act (.callee n))
    visitChildren n
  | .functionDef => functionDef cfg n
  | .lambda => lambda cfg n
  | .classDef => classDef cfg n
  | .assign => do
    visitField n "value"
    visitItems n "targets"
  | .augAssign => do
    emit (.act (.load (← lift (n.get "target"))))
    visitField n "value"
    visitField n "target"
  | .importNames => importNames n
  | .importFrom => importFrom n
  | .tryBlock => tryBlock n
  | .exceptHandler => exceptHandler n

end Script

def NodeOf.script (cfg : Setup) (n : Node) : Script Unit := do
  Script.ofRule cfg n (← Script.lift (Check.ruleFor? n))

end ScopeLint
