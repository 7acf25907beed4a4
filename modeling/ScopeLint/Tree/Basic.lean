import ScopeLint.Datum

/-! Syntax trees. A node has a kind, a position unless it is only a part of one, and named fields
in a fixed order. Nothing is assumed of the shape of a tree: a field may be missing or hold any
value, and the operations that need more say what they need. -/
namespace ScopeLint

/-- Line, from one, and column, from zero. That they are numbers is not assumed either. -/
structure Position where
  line : Datum
  column : Datum

def Position.of (line column : Int) : Position := ⟨.int line, .int column⟩

/-- A node over field values of type `ν`. Nodes are told apart by `id`. -/
structure NodeOf (ν : Type) where
  id : Nat
  kind : String
  position : Option Position
  fields : List (String × ν)

inductive Value where
  | node (n : NodeOf Value)
  | list (items : List Value)
  | text (s : String)
  | int (n : Int)
  | real (x : Double)
  | bool (b : Bool)
  | null
  /-- A constant that is never looked into. -/
  | constant (shown : String)

abbrev Node := NodeOf Value

instance : Inhabited Value := ⟨.null⟩

namespace Value

def typeName : Value → String
  | .node n => n.kind
  | .list _ => "list"
  | .text _ => "str"
  | .int _ => "int"
  | .real _ => "float"
  | .bool _ => "bool"
  | .null => "NoneType"
  | .constant _ => "object"

def truthy : Value → Bool
  | .node _ => true
  | .list items => !items.isEmpty
  | .text s => s != ""
  | .int n => n != 0
  | .real x => !x.isZero
  | .bool b => b
  | .null => false
  | .constant _ => true

def isNull : Value → Bool
  | .null => true
  | _ => false

def node? : Value → Option Node
  | .node n => some n
  | _ => none

def text? : Value → Option String
  | .text s => some s
  | _ => none

def integer? : Value → Option Int
  | .int n => some n
  | .bool b => some (if b then 1 else 0)
  | _ => none

def isKind (v : Value) (kind : String) : Bool :=
  match v with
  | .node n => n.kind == kind
  | _ => false

def items : Value → Except Fault (List Value)
  | .list items => .ok items
  | .text s => .ok (s.toList.map fun c => .text (String.singleton c))
  | _ => .error .wrongType

/-- Whether the node is one of the items of a list; nothing else can hold a node. -/
def holds (v : Value) (n : NodeOf Value) : Except Fault Bool :=
  match v with
  | .list items => .ok (items.any fun item => (item.node?.map (·.id)) == some n.id)
  | _ => .error .wrongType

/-- A sum of numbers, or two texts or lists end to end. -/
def add : Value → Value → Except Fault Value
  | .list xs, .list ys => .ok (.list (xs ++ ys))
  | .text s, .text t => .ok (.text (s ++ t))
  | v, w =>
    match v.integer?, w.integer? with
    | some m, some n => .ok (.int (m + n))
    | _, _ => .error .wrongType

mutual

/-- The value as a name or as part of a text; nodes are only told apart. -/
def datum : Value → Datum
  | .node n => .object n.kind (some n.id) []
  | .list items => .list (datumItems items)
  | .text s => .text s
  | .int n => .int n
  | .real x => .real x
  | .bool b => .bool b
  | .null => .null
  | .constant _ => .object "object" none []

def datumItems : List Value → List Datum
  | [] => []
  | v :: rest => datum v :: datumItems rest

end

end Value

namespace NodeOf

/-- The field `name`. Nodes are assumed to be those of the latest dialect in all dialects, so a function
definition always has a return annotation, if only a null one. -/
def field? (n : Node) (name : String) : Option Value :=
  match n.fields.lookup name with
  | some v => some v
  | none => if n.kind = "FunctionDef" ∧ name = "returns" then some .null else none

def get (n : Node) (name : String) : Except Fault Value :=
  match n.field? name with
  | some v => .ok v
  | none => .error (.missingAttribute n.kind name)

def has (n : Node) (name : String) : Bool := (n.field? name).isSome

def itemsOf (n : Node) (name : String) : Except Fault (List Value) := do
  (← n.get name).items

def children (n : Node) : List Node :=
  n.fields.flatMap fun f =>
    match f.2 with
    | .node m => [m]
    | .list items => items.filterMap Value.node?
    | _ => []

end NodeOf

namespace Value

def get (v : Value) (name : String) : Except Fault Value :=
  match v with
  | .node n => n.get name
  | v => .error (.missingAttribute v.typeName name)

def field? (v : Value) (name : String) : Option Value :=
  match v with
  | .node n => n.field? name
  | _ => none

/-- The name that a value stands for: its `id`, else its `name`, if not empty. -/
def nameOf (v : Value) : Value :=
  match v.field? "id" with
  | some i => if i.truthy then i else (v.field? "name").getD (.bool false)
  | none => (v.field? "name").getD (.bool false)

def nameOf? (v : Value) : Option Datum :=
  if v.nameOf.truthy then some v.nameOf.datum else none

def isLiteral (v : Value) : Bool :=
  match v with
  | .node n =>
    n.kind == "Str" ||
      n.kind == "Constant" && match n.field? "value" with
        | some (.text _) => true
        | _ => false
  | _ => false

def literal (v : Value) : Except Fault Value :=
  if v.isKind "Constant" then v.get "value" else v.get "s"

end Value

mutual

def Value.size : Value → Nat
  | .node n => n.size
  | .list items => Value.sizeItems items + 1
  | _ => 1

def NodeOf.size : NodeOf Value → Nat
  | ⟨_, _, _, fields⟩ => Value.sizeFields fields + 1

def Value.sizeFields : List (String × Value) → Nat
  | [] => 0
  | f :: rest => Value.sizeField f + Value.sizeFields rest

def Value.sizeField : String × Value → Nat
  | (_, v) => v.size

def Value.sizeItems : List Value → Nat
  | [] => 0
  | v :: rest => v.size + Value.sizeItems rest

end

mutual

/-- All nodes in a value, each before what is below it. -/
def Value.nodes : Value → List Node
  | .node n => NodeOf.nodes n
  | .list items => Value.nodesItems items
  | _ => []

def NodeOf.nodes : NodeOf Value → List Node
  | ⟨id, kind, position, fields⟩ => ⟨id, kind, position, fields⟩ :: Value.nodesFields fields

def Value.nodesFields : List (String × Value) → List Node
  | [] => []
  | f :: rest => Value.nodesField f ++ Value.nodesFields rest

def Value.nodesField : String × Value → List Node
  | (_, v) => v.nodes

def Value.nodesItems : List Value → List Node
  | [] => []
  | v :: rest => v.nodes ++ Value.nodesItems rest

end

mutual

/-- The value with its nodes numbered from `next` on, each before what is below it, and the first
number that is still free. -/
def Value.numbered (next : Nat) : Value → Value × Nat
  | .node n => let (n, next) := NodeOf.numbered next n; (.node n, next)
  | .list items => let (items, next) := Value.numberedItems next items; (.list items, next)
  | .text s => (.text s, next)
  | .int n => (.int n, next)
  | .real x => (.real x, next)
  | .bool b => (.bool b, next)
  | .null => (.null, next)
  | .constant s => (.constant s, next)

def NodeOf.numbered (next : Nat) : NodeOf Value → NodeOf Value × Nat
  | ⟨_, kind, position, fields⟩ =>
    let (fields, after) := Value.numberedFields (next + 1) fields
    (⟨next, kind, position, fields⟩, after)

def Value.numberedFields (next : Nat) : List (String × Value) → List (String × Value) × Nat
  | [] => ([], next)
  | f :: rest =>
    let (f, next) := Value.numberedField next f
    let (rest, next) := Value.numberedFields next rest
    (f :: rest, next)

def Value.numberedField (next : Nat) : String × Value → (String × Value) × Nat
  | (name, v) => let (v, next) := Value.numbered next v; ((name, v), next)

def Value.numberedItems (next : Nat) : List Value → List Value × Nat
  | [] => ([], next)
  | v :: rest =>
    let (v, next) := Value.numbered next v
    let (rest, next) := Value.numberedItems next rest
    (v :: rest, next)

end

end ScopeLint
