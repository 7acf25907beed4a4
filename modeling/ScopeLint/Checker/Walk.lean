import ScopeLint.Checker.Names
import ScopeLint.Checker.Rules

/-! The walk over a tree. Each rule is given the visit for the values below its node, so that a
property of all visits one level down gives the property of the rule. -/
namespace ScopeLint

def NodeOf.isFunction (n : Node) : Bool :=
  Rule.of? n.kind == some .functionDef || Rule.of? n.kind == some .lambda

namespace Check

abbrev Visit := Value → Node → Check Unit

def visitAll (visit : Visit) (parent : Node) (values : List Value) : Check Unit :=
  values.forM fun v => visit v parent

def visitItems (visit : Visit) (n : Node) (name : String) : Check Unit := do
  visitAll visit n (← lift (n.itemsOf name))

def visitField (visit : Visit) (n : Node) (name : String) : Check Unit := do
  visit (← lift (n.get name)) n

def visitChildren (visit : Visit) (n : Node) : Check Unit :=
  n.children.forM fun c => visit (.node c) n

def declareGlobal (name : Datum) : Check Unit := do
  let (top, scope) ← current
  let declared ← lift (scope.declareGlobal name)
  updateScope top fun _ => declared

def ruleGlobal (n : Node) : Check Unit := do
  let (_, scope) ← current
  if scope.kind = .function then
    (← lift (n.itemsOf "names")).forM fun name => declareGlobal name.datum

/-- Generators come before the element that they are for. -/
def ruleListComp (visit : Visit) (n : Node) : Check Unit := do
  visitItems visit n "generators"
  visitField visit n "elt"

def ruleGeneratorExp (visit : Visit) (n : Node) : Check Unit :=
  inScope .generator do
    visitItems visit n "generators"
    visitField visit n "elt"

def ruleDictComp (visit : Visit) (n : Node) : Check Unit :=
  inScope .generator do
    visitItems visit n "generators"
    visitField visit n "key"
    visitField visit n "value"

def contextKinds : List String := ["Load", "Store", "Del", "AugLoad", "AugStore", "Param"]

def loopNames : Nat → Value → Except Fault (List Datum)
  | 0, _ => .error .endless
  | fuel + 1, v =>
    match v with
    | .node n =>
      if n.kind = "Name" then do return [(← n.get "id").datum]
      else if contextKinds.contains n.kind then .ok []
      else do return (← n.children.mapM fun c => loopNames fuel (.node c)).flatten
    | v => .error (.missingAttribute v.typeName "_fields")

def reportShadowing (cfg : Setup) (n : Node) (name : Datum) : Check Unit := do
  let (_, scope) ← current
  match scope.find? (← lift name.key) with
  | some b =>
    if b.kind.isImportation && b.isUsed then
      report cfg .importShadowedByLoopVar (.node n) [name, ← datum b.source]
  | none => return

def ruleFor (cfg : Setup) (visit : Visit) (n : Node) : Check Unit := do
  let target ← lift (n.get "target")
  (← lift (loopNames target.size target)).forM (reportShadowing cfg n)
  visitChildren visit n

/-- A call of `locals` in a function uses everything that the function binds. -/
def noteLocals (n : Node) : Check Unit := do
  if (← lift (n.get "id")).text? = some "locals" then
    let (top, scope) ← current
    if scope.kind = .function then
      if ((← get).parent? n).any fun p => p.kind = "Call" then
        updateScope top fun scope => { scope with usesLocals := true }

def ruleName (cfg : Setup) (n : Node) : Check Unit := do
  let context ← lift (n.get "ctx")
  if context.isKind "Load" || context.isKind "AugLoad" then
    load cfg (.node n)
    noteLocals n
  else if context.isKind "Store" || context.isKind "AugStore" then store cfg n
  else if context.isKind "Del" then delete cfg n
  else throw (.strayContext context.datum.shown)

def problemReport (name : Datum) : CallProblem → Kind × List Datum
  | .tooMany most => (.tooManyArguments, [name, .int most])
  | .unexpected keyword => (.unexpectedArgument, [name, keyword])
  | .repeated keyword => (.multipleValues, [name, keyword])
  | .tooFew least => (.tooFewArguments, [name, .int least])
  | .missingKeywordOnly names =>
    (.needKwOnlyArgument, [name, .text (Text.join ", " (names.map Datum.shown))])

def checkCall (cfg : Setup) (signature : Signature) (call : Node) (name : Datum) : Check Unit := do
  match ← lift (signature.problem? call) with
  | some problem =>
    let (kind, args) := problemReport name problem
    report cfg kind (.node call) args
  | none => return

def checkCallee (cfg : Setup) (n : Node) : Check Unit := do
  let function ← lift (n.get "func")
  if function.isKind "Name" then
    let s ← get
    let visible ← lift s.visibleScopes
    let name := (← lift (function.get "id")).datum
    let key ← lift name.key
    match visible.findSome? fun id => s.binding? id key with
    | some ⟨_, .function signature, _, _⟩ => checkCall cfg signature n name
    | _ => pure ()

def ruleCall (cfg : Setup) (visit : Visit) (n : Node) : Check Unit := do
  checkCallee cfg n
  visitChildren visit n

/-- Parameters in the dialects where they may be tuples. A name that was there before is reported
as it comes. -/
def tupleParameters (cfg : Setup) (n : Node) : Nat → List Datum → List Value → Check (List Datum)
  | 0, _, _ => throw .endless
  | _, names, [] => return names
  | fuel + 1, names, arg :: rest => do
    if arg.isKind "Tuple" then
      let items ← lift do (← arg.get "elts").items
      tupleParameters cfg n fuel (← tupleParameters cfg n fuel names items) rest
    else
      let name := (← lift (arg.get "id")).datum
      if Datum.among names name then report cfg .duplicateArgument (.node n) [name]
      tupleParameters cfg n fuel (names ++ [name]) rest

structure Parameters where
  names : List Datum
  annotations : List Value
  defaults : Value

def plainParameters (cfg : Setup) (n : Node) (args : Value) : Check Parameters := do
  if cfg.dialect.isTwo then
    let items ← lift do (← args.get "args").items
    let names ← tupleParameters cfg n (args.size + 1) [] items
    return ⟨names, [], ← lift (args.get "defaults")⟩
  else
    let all ← lift do (← (← args.get "args").add (← args.get "kwonlyargs")).items
    let both ← lift (all.mapM fun arg => do
      let annotated ← arg.get "annotation"
      return ((← arg.get "arg").datum, annotated))
    let defaults ← lift do (← args.get "defaults").add (← args.get "kw_defaults")
    return ⟨both.map (·.1), both.map (·.2), defaults⟩

/-- The annotation of a starred parameter, which stands with the parameter or beside it. -/
def annotationStarred (cfg : Setup) (args starred : Value) (name : String) : Except Fault Value :=
  if cfg.dialect = .threeFour then starred.get "annotation" else args.get (name ++ "annotation")

def starredParameter (cfg : Setup) (n : Node) (args : Value) (ps : Parameters) (name : String) :
    Except Fault Parameters := do
  let starred ← args.get name
  if !starred.truthy then return ps
  let names := ps.names ++ [((starred.field? "arg").getD starred).datum]
  if n.has "returns" then
    let annotated ← annotationStarred cfg args starred name
    return { ps with names, annotations := ps.annotations ++ [annotated] }
  return { ps with names }

def reportDuplicates (cfg : Setup) (n : Node) (before : List Datum) : List Datum → Check Unit
  | [] => return
  | name :: rest => do
    if Datum.among before name then report cfg .duplicateArgument (.node n) [name]
    reportDuplicates cfg n (before ++ [name]) rest

def parametersOf (cfg : Setup) (n : Node) (args : Value) : Check Parameters := do
  let ps ← plainParameters cfg n args
  let ps ← lift (starredParameter cfg n args ps "vararg")
  let ps ← lift (starredParameter cfg n args ps "kwarg")
  if n.has "returns" then
    return { ps with annotations := ps.annotations ++ [← lift (n.get "returns")] }
  return ps

def checkParameters (cfg : Setup) (n : Node) (ps : Parameters) : Check Unit := do
  if !cfg.dialect.isTwo then
    ps.names.forM fun name => do let _ ← lift name.key
    reportDuplicates cfg n [] ps.names

/-- Defaults and annotations belong to the scope around a function; its body is put off. -/
def ruleLambda (cfg : Setup) (visit : Visit) (n : Node) : Check Unit := do
  let ps ← parametersOf cfg n (← lift (n.get "args"))
  checkParameters cfg n ps
  let outside ← lift do (← (Value.list ps.annotations).add ps.defaults).items
  visitAll visit n (outside.filter Value.truthy)
  defer .functions (.body n ps.names)

def ruleFunctionDef (cfg : Setup) (visit : Visit) (n : Node) : Check Unit := do
  visitItems visit n "decorator_list"
  let name ← lift (n.get "name")
  let signature ← lift (Signature.ofFunction n)
  bind cfg n (.fresh name.datum (.function signature) (.node n)) true
  ruleLambda cfg visit n
  if cfg.doctests then defer .functions (.doctests n)

def ruleClassDef (cfg : Setup) (visit : Visit) (n : Node) : Check Unit := do
  visitItems visit n "decorator_list"
  visitItems visit n "bases"
  if !cfg.dialect.isTwo then visitItems visit n "keywords"
  inScope .classBody do
    if cfg.doctests then defer .functions (.doctests n)
    visitItems visit n "body"
  let name ← lift (n.get "name")
  bind cfg n (.fresh name.datum .classDefinition (.node n)) true

def ruleAssign (visit : Visit) (n : Node) : Check Unit := do
  visitField visit n "value"
  visitItems visit n "targets"

/-- The target is loaded before it is stored. -/
def ruleAugAssign (cfg : Setup) (visit : Visit) (n : Node) : Check Unit := do
  load cfg (← lift (n.get "target"))
  visitField visit n "value"
  visitField visit n "target"

def importedName (item : Value) : Except Fault String := do
  let other ← item.get "asname"
  let full ← if other.truthy then pure other else item.get "name"
  match full with
  | .text s => return s
  | v => .error (.missingAttribute v.typeName "split")

def ruleImport (cfg : Setup) (n : Node) : Check Unit := do
  (← lift (n.itemsOf "names")).forM fun item => do
    bind cfg n (.importation (← lift (importedName item)) (.node n)) true

def importStar (cfg : Setup) (n : Node) (module : Value) : Check Unit := do
  let (top, _) ← current
  updateScope top fun scope => { scope with starred := true }
  report cfg .importStarUsed (.node n) [← datum module]

def importFromItem (cfg : Setup) (n : Node) (module : Value) (item : Value) : Check Unit := do
  if (← lift (item.get "name")).text? = some "*" then importStar cfg n module
  else
    let b := Binding.importation (← lift (importedName item)) (.node n)
    if module.text? = some "__future__" then
      let (top, _) ← current
      bind cfg n { b with used := some ⟨top, .node n⟩ } true
    else bind cfg n b true

def ruleImportFrom (cfg : Setup) (n : Node) : Check Unit := do
  let module ← lift (n.get "module")
  if module.text? = some "__future__" then
    if !(← get).futuresAllowed then
      let names ← lift do (← n.itemsOf "names").mapM fun item => item.get "name"
      report cfg .lateFutureImport (.node n) [.list (← names.mapM datum)]
  else modify fun s => { s with futuresAllowed := false }
  (← lift (n.itemsOf "names")).forM (importFromItem cfg n module)

def caughtNames (handler : Value) : Except Fault (List Datum) := do
  let type ← handler.get "type"
  if type.isKind "Tuple" then
    return (← (← type.get "elts").items).map fun v => v.nameOf.datum
  else if type.truthy then return [type.nameOf.datum]
  else return []

/-- The body is visited under the guard of the handlers, everything else after it. -/
def ruleTry (visit : Visit) (n : Node) : Check Unit := do
  let handlers ← lift (n.itemsOf "handlers")
  let caught ← lift (handlers.mapM caughtNames)
  underGuard (.list caught.flatten) (visitItems visit n "body")
  n.children.forM fun c => do
    if !(← lift do (← n.get "body").holds c) then visit (.node c) n

def ruleExceptHandler (cfg : Setup) (visit : Visit) (n : Node) : Check Unit := do
  if (← lift (n.get "type")).isNull then report cfg .bareExcept (.node n) []
  if (← lift (n.get "name")).text?.isSome then store cfg n
  visitChildren visit n

def applyRule (cfg : Setup) (visit : Visit) (n : Node) : Rule → Check Unit
  | .descend => visitChildren visit n
  | .ignore => return
  | .globalNames => ruleGlobal n
  | .listComp => ruleListComp visit n
  | .generatorExp => ruleGeneratorExp visit n
  | .dictComp => ruleDictComp visit n
  | .forLoop => ruleFor cfg visit n
  | .name => ruleName cfg n
  | .call => ruleCall cfg visit n
  | .functionDef => ruleFunctionDef cfg visit n
  | .lambda => ruleLambda cfg visit n
  | .classDef => ruleClassDef cfg visit n
  | .assign => ruleAssign visit n
  | .augAssign => ruleAugAssign cfg visit n
  | .importNames => ruleImport cfg n
  | .importFrom => ruleImportFrom cfg n
  | .tryBlock => ruleTry visit n
  | .exceptHandler => ruleExceptHandler cfg visit n

/-- A string literal, alone or as a statement. -/
def isDocstring (v : Value) : Except Fault Bool := do
  if v.isLiteral then return true
  if v.isKind "Expr" then return (← v.get "value").isLiteral
  return false

def moveNode (n : Node) (p : Position) : Check Unit :=
  modify fun s => { s with moved := (n.id, p) :: s.moved }

/-- The node moves by the shift in force, first to its line and then to its column. -/
def shiftNode (n : Node) : Check Unit := do
  let s ← get
  match s.shift, s.position? n with
  | some shift, some p =>
    if p.line.isNull then return
    let line ← lift (do p.line.add (← shift.line))
    match (do p.column.add (← shift.column) : Except Fault Datum) with
    | .ok column => moveNode n ⟨line, column⟩
    | .error e => do
      moveNode n ⟨line, p.column⟩
      throw e
  | _, _ => return

def indent (depth : Nat) : String := String.ofList (List.replicate (2 * depth) ' ')

def traceLine (cfg : Setup) (line : String) : Check Unit :=
  if cfg.traced then
    modify fun s => { s with trace := s.trace.push (indent s.depth ++ line) }
  else return

/-- Anything but a future import or a docstring ends the part where future imports may stand. -/
def closeFutures (v : Value) : Check Unit := do
  if (← get).futuresAllowed then
    if !v.isKind "ImportFrom" then
      if !(← lift (isDocstring v)) then modify fun s => { s with futuresAllowed := false }

def markNode (n parent : Node) : Check Unit :=
  modify fun s => { s with marks := (n.id, ⟨s.depth, s.lineage parent⟩) :: s.marks }

def deepen : Check Unit := modify fun s => { s with depth := s.depth + 1 }

/-- Runs a step and comes back up one level, also if it fails. -/
def thenRise (act : Check Unit) : Check Unit := fun s =>
  match act s with
  | .ok a s => .ok a { s with depth := s.depth - 1 }
  | .error e s => .error e { s with depth := s.depth - 1 }

def ruleFor? (n : Node) : Except Fault Rule :=
  match Rule.of? n.kind with
  | some rule => .ok rule
  | none => .error (.missingAttribute "Checker" (Text.upper n.kind))

/-- What happens before the rule for a node below `parent`: the node gets its place. -/
def enterNode (cfg : Setup) (n parent : Node) : Check Unit := do
  shiftNode n
  traceLine cfg n.kind
  closeFutures (.node n)
  deepen
  markNode n parent

/-- Applies its rule to a node, given the visit for what is below the node. -/
def handleNode (cfg : Setup) (below : Visit) (n : Node) : Check Unit := do
  applyRule cfg below n (← lift (ruleFor? n))

/-- The visit of something that can have no place: it goes down a level and fails there. -/
def refuse (cfg : Setup) (v : Value) : Check Unit := do
  traceLine cfg v.typeName
  closeFutures v
  deepen
  throw (.missingAttribute v.typeName "level")

/-- Visits a value below `parent`, given what is done with a node that has got its place. Nothing is
done for null, and anything but a node is a fault. -/
def visitOne (cfg : Setup) (handle : Node → Check Unit) : Visit
  | .null, _ => return
  | .node n, parent => do
    enterNode cfg n parent
    thenRise (handle n)
    traceLine cfg ("end " ++ n.kind)
  | v, _ => refuse cfg v

/-- The visit of values, as long as they are not nested deeper than the fuel; the size of a value
is enough. -/
def visitWithin (cfg : Setup) : Nat → Visit
  | 0 => fun v _ => if v.isNull then return else throw .endless
  | fuel + 1 => visitOne cfg (handleNode cfg (visitWithin cfg fuel))

def visit (cfg : Setup) : Visit := fun v parent => visitWithin cfg v.size v parent

end Check

end ScopeLint
