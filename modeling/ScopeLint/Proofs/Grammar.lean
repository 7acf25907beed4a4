import Mathlib.Data.Set.List
import ScopeLint.Proofs.Checker.Parts

/-! # The abstract grammar of trees

A production says of what category the nodes of a kind are and what their fields hold, in their order.
A tree conforms to the grammar of a dialect if each of its nodes does. -/
namespace ScopeLint

open List

variable {d : Dialect} {n m x : Node} {v : Value} {name : String}

inductive Category where
  | module
  | statement
  | expression
  | context
  | slice
  | boolOperator
  | operator
  | unaryOperator
  | comparison
  | comprehension
  | handler
  | parameters
  | parameter
  | keyword
  | alias
  | withItem
  deriving DecidableEq

namespace Category

def isPlaced : Category → Bool
  | .statement | .expression | .handler => true
  | _ => false

/-- Whether nodes of the category are words only: no other nodes are below them. -/
def isWord : Category → Bool
  | .context | .boolOperator | .operator | .unaryOperator | .comparison | .alias => true
  | _ => false

end Category

/-- What stands in a field, or in the list that a field holds. -/
inductive Content where
  | node (category : Category)
  /-- A name, which is not empty. -/
  | identifier
  | text
  | integer
  /-- A constant, which is neither a node nor a list. -/
  | constant
  deriving DecidableEq

inductive Arity where
  | one
  | optional
  | many
  /-- A list with gaps. -/
  | manyOptional
  deriving DecidableEq

/-- What the field `name` holds. -/
structure FieldRule where
  name : String
  arity : Arity
  content : Content
  deriving DecidableEq

namespace FieldRule

def one (name : String) (content : Content) : FieldRule := ⟨name, .one, content⟩

def optional (name : String) (content : Content) : FieldRule := ⟨name, .optional, content⟩

def many (name : String) (content : Content) : FieldRule := ⟨name, .many, content⟩

def manyOptional (name : String) (content : Content) : FieldRule := ⟨name, .manyOptional, content⟩

end FieldRule

structure Production where
  kind : String
  category : Category
  fields : List FieldRule
  deriving DecidableEq

namespace Grammar

open FieldRule

def expression : Content := .node .expression

def statement : Content := .node .statement

def modules : List Production :=
  [⟨"Module", .module, [many "body" statement]⟩,
   ⟨"Interactive", .module, [many "body" statement]⟩,
   ⟨"Expression", .module, [one "body" expression]⟩,
   ⟨"Suite", .module, [many "body" statement]⟩]

def statements : List Production :=
  [⟨"FunctionDef", .statement, [one "name" .identifier, one "args" (.node .parameters),
      many "body" statement, many "decorator_list" expression, optional "returns" expression]⟩,
   ⟨"ClassDef", .statement, [one "name" .identifier, many "bases" expression,
      many "keywords" (.node .keyword), optional "starargs" expression, optional "kwargs" expression,
      many "body" statement, many "decorator_list" expression]⟩,
   ⟨"Return", .statement, [optional "value" expression]⟩,
   ⟨"Delete", .statement, [many "targets" expression]⟩,
   ⟨"Assign", .statement, [many "targets" expression, one "value" expression]⟩,
   ⟨"AugAssign", .statement, [one "target" expression, one "op" (.node .operator),
      one "value" expression]⟩,
   ⟨"For", .statement, [one "target" expression, one "iter" expression, many "body" statement,
      many "orelse" statement]⟩,
   ⟨"While", .statement, [one "test" expression, many "body" statement, many "orelse" statement]⟩,
   ⟨"If", .statement, [one "test" expression, many "body" statement, many "orelse" statement]⟩,
   ⟨"With", .statement, [many "items" (.node .withItem), many "body" statement]⟩,
   ⟨"Raise", .statement, [optional "exc" expression, optional "cause" expression]⟩,
   ⟨"Try", .statement, [many "body" statement, many "handlers" (.node .handler),
      many "orelse" statement, many "finalbody" statement]⟩,
   ⟨"Assert", .statement, [one "test" expression, optional "msg" expression]⟩,
   ⟨"Import", .statement, [many "names" (.node .alias)]⟩,
   ⟨"ImportFrom", .statement, [optional "module" .identifier, many "names" (.node .alias),
      optional "level" .integer]⟩,
   ⟨"Global", .statement, [many "names" .identifier]⟩,
   ⟨"Nonlocal", .statement, [many "names" .identifier]⟩,
   ⟨"Expr", .statement, [one "value" expression]⟩,
   ⟨"Pass", .statement, []⟩,
   ⟨"Break", .statement, []⟩,
   ⟨"Continue", .statement, []⟩]

def expressions : List Production :=
  [⟨"BoolOp", .expression, [one "op" (.node .boolOperator), many "values" expression]⟩,
   ⟨"BinOp", .expression, [one "left" expression, one "op" (.node .operator),
      one "right" expression]⟩,
   ⟨"UnaryOp", .expression, [one "op" (.node .unaryOperator), one "operand" expression]⟩,
   ⟨"Lambda", .expression, [one "args" (.node .parameters), one "body" expression]⟩,
   ⟨"IfExp", .expression, [one "test" expression, one "body" expression, one "orelse" expression]⟩,
   ⟨"Dict", .expression, [many "keys" expression, many "values" expression]⟩,
   ⟨"Set", .expression, [many "elts" expression]⟩,
   ⟨"ListComp", .expression, [one "elt" expression, many "generators" (.node .comprehension)]⟩,
   ⟨"SetComp", .expression, [one "elt" expression, many "generators" (.node .comprehension)]⟩,
   ⟨"DictComp", .expression, [one "key" expression, one "value" expression,
      many "generators" (.node .comprehension)]⟩,
   ⟨"GeneratorExp", .expression, [one "elt" expression, many "generators" (.node .comprehension)]⟩,
   ⟨"Yield", .expression, [optional "value" expression]⟩,
   ⟨"YieldFrom", .expression, [one "value" expression]⟩,
   ⟨"Compare", .expression, [one "left" expression, many "ops" (.node .comparison),
      many "comparators" expression]⟩,
   ⟨"Call", .expression, [one "func" expression, many "args" expression,
      many "keywords" (.node .keyword), optional "starargs" expression,
      optional "kwargs" expression]⟩,
   ⟨"Num", .expression, [one "n" .constant]⟩,
   ⟨"Str", .expression, [one "s" .text]⟩,
   ⟨"Bytes", .expression, [one "s" .constant]⟩,
   ⟨"Ellipsis", .expression, []⟩,
   ⟨"Attribute", .expression, [one "value" expression, one "attr" .identifier,
      one "ctx" (.node .context)]⟩,
   ⟨"Subscript", .expression, [one "value" expression, one "slice" (.node .slice),
      one "ctx" (.node .context)]⟩,
   ⟨"Starred", .expression, [one "value" expression, one "ctx" (.node .context)]⟩,
   ⟨"Name", .expression, [one "id" .identifier, one "ctx" (.node .context)]⟩,
   ⟨"List", .expression, [many "elts" expression, one "ctx" (.node .context)]⟩,
   ⟨"Tuple", .expression, [many "elts" expression, one "ctx" (.node .context)]⟩]

def words (category : Category) (kinds : List String) : List Production :=
  kinds.map (⟨·, category, []⟩)

def parts : List Production :=
  words .context ["Load", "Store", "Del", "AugLoad", "AugStore", "Param"] ++
  words .boolOperator ["And", "Or"] ++
  words .operator ["Add", "Sub", "Mult", "Div", "Mod", "Pow", "LShift", "RShift", "BitOr", "BitXor",
    "BitAnd", "FloorDiv"] ++
  words .unaryOperator ["Invert", "Not", "UAdd", "USub"] ++
  words .comparison ["Eq", "NotEq", "Lt", "LtE", "Gt", "GtE", "Is", "IsNot", "In", "NotIn"] ++
  [⟨"Slice", .slice, [optional "lower" expression, optional "upper" expression,
      optional "step" expression]⟩,
   ⟨"ExtSlice", .slice, [many "dims" (.node .slice)]⟩,
   ⟨"Index", .slice, [one "value" expression]⟩,
   ⟨"comprehension", .comprehension, [one "target" expression, one "iter" expression,
      many "ifs" expression]⟩,
   ⟨"ExceptHandler", .handler, [optional "type" expression, optional "name" .identifier,
      many "body" statement]⟩,
   ⟨"arg", .parameter, [one "arg" .identifier, optional "annotation" expression]⟩,
   ⟨"keyword", .keyword, [one "arg" .identifier, one "value" expression]⟩,
   ⟨"alias", .alias, [one "name" .identifier, optional "asname" .identifier]⟩,
   ⟨"withitem", .withItem, [one "context_expr" expression, optional "optional_vars" expression]⟩]

def shared : List Production := modules ++ statements ++ expressions ++ parts

/-- Annotations of starred parameters stand beside them. -/
def annotatedBeside : List Production :=
  [⟨"arguments", .parameters, [many "args" (.node .parameter), optional "vararg" .identifier,
      optional "varargannotation" expression, many "kwonlyargs" (.node .parameter),
      optional "kwarg" .identifier, optional "kwargannotation" expression,
      many "defaults" expression, manyOptional "kw_defaults" expression]⟩]

/-- Annotations of starred parameters stand with them. -/
def annotatedWith : List Production :=
  [⟨"NameConstant", .expression, [one "value" .constant]⟩,
   ⟨"arguments", .parameters, [many "args" (.node .parameter),
      optional "vararg" (.node .parameter), many "kwonlyargs" (.node .parameter),
      manyOptional "kw_defaults" expression, optional "kwarg" (.node .parameter),
      many "defaults" expression]⟩]

end Grammar

namespace Dialect

open FieldRule Grammar

/-- The grammar of the dialects without tuples as parameters. -/
def grammar : Dialect → List Production
  | .two | .twoSeven => []
  | .threeThree => shared ++ annotatedBeside
  | .threeFour => shared ++ annotatedWith

def categoryOf (d : Dialect) (kind : String) : Option Category :=
  (d.grammar.find? (·.kind == kind)).map (·.category)

end Dialect

def Content.fits (d : Dialect) : Content → Value → Bool
  | .node category, .node m => d.categoryOf m.kind == some category
  | .identifier, .text s => s != ""
  | .text, .text _ => true
  | .integer, .int _ => true
  | .constant, .node _ | .constant, .list _ => false
  | .constant, _ => true
  | _, _ => false

def FieldRule.fits (d : Dialect) (f : FieldRule) (v : Value) : Bool :=
  match f.arity, v with
  | .one, v => f.content.fits d v
  | .optional, v => v.isNull || f.content.fits d v
  | .many, .list items => items.all (f.content.fits d)
  | .manyOptional, .list items => items.all fun v => v.isNull || f.content.fits d v
  | _, _ => false

namespace Production

/-- Whether the fields are there in the order of the rules, each with what it holds. -/
def fieldsFit (d : Dialect) : List FieldRule → List (String × Value) → Bool
  | [], [] => true
  | f :: rules, (name, v) :: fields => f.name == name && f.fits d v && fieldsFit d rules fields
  | _, _ => false

def admits (d : Dialect) (p : Production) (n : Node) : Bool :=
  p.kind == n.kind && fieldsFit d p.fields n.fields &&
    (!p.category.isPlaced || match n.position with
      | some ⟨.int _, .int _⟩ => true
      | _ => false)

end Production

namespace NodeOf

/-- Whether the node, apart from what is further below, is made by a production. -/
def isFormed (d : Dialect) (n : Node) : Bool := d.grammar.any (·.admits d n)

/-- A whole tree of the dialect. -/
structure Conforms (d : Dialect) (root : Node) : Prop where
  module : d.categoryOf root.kind = some .module
  formed : ∀ n ∈ root.nodes, n.isFormed d = true

end NodeOf

section Table

/-- A kind has one production. -/
theorem Dialect.nodup_kinds (d : Dialect) : (d.grammar.map (·.kind)).Nodup := by
  have hshared : (Grammar.shared.map (·.kind)).Nodup := by decide
  cases d with
  | two | twoSeven => exact nodup_nil
  | threeThree =>
    rw [Dialect.grammar, map_append, nodup_append]
    exact ⟨hshared, by decide, by decide⟩
  | threeFour =>
    rw [Dialect.grammar, map_append, nodup_append]
    exact ⟨hshared, by decide, by decide⟩

theorem Dialect.nodup_fields (d : Dialect) : ∀ p ∈ d.grammar, (p.fields.map (·.name)).Nodup := by
  cases d <;> decide

theorem Dialect.categoryOf_of_mem {p : Production} (hp : p ∈ d.grammar) :
    d.categoryOf p.kind = some p.category := by
  have hfind : d.grammar.find? (·.kind == p.kind) = some p := by
    cases hf : d.grammar.find? (·.kind == p.kind) with
    | none => simpa using find?_eq_none.mp hf p hp
    | some q =>
      have hkind : q.kind = p.kind := by simpa using find?_some hf
      rw [inj_on_of_nodup_map d.nodup_kinds (mem_of_find?_eq_some hf) hp hkind]
  rw [Dialect.categoryOf, hfind]
  rfl

theorem Dialect.exists_of_categoryOf {kind : String} {category : Category}
    (h : d.categoryOf kind = some category) :
    ∃ p ∈ d.grammar, p.kind = kind ∧ p.category = category := by
  obtain ⟨p, hp, hcategory⟩ := Option.map_eq_some_iff.mp h
  exact ⟨p, mem_of_find?_eq_some hp, by simpa using find?_some hp, hcategory⟩

end Table

namespace Category

def isVisited : Category → Bool
  | .module | .parameters | .parameter | .alias => false
  | _ => true

end Category

def Content.isVisited : Content → Bool
  | .node category => category.isVisited
  | _ => true

namespace Rule

open FieldRule Grammar

/-- The fields of the nodes of the kinds that the rule is made for. -/
def fields : Rule → List FieldRule
  | .descend | .ignore => []
  | .globalNames => [many "names" .identifier]
  | .listComp | .generatorExp =>
    [one "elt" expression, many "generators" (.node .comprehension)]
  | .dictComp =>
    [one "key" expression, one "value" expression, many "generators" (.node .comprehension)]
  | .forLoop =>
    [one "target" expression, one "iter" expression, many "body" statement, many "orelse" statement]
  | .name => [one "id" .identifier, one "ctx" (.node .context)]
  | .call =>
    [one "func" expression, many "args" expression, many "keywords" (.node .keyword),
      optional "starargs" expression, optional "kwargs" expression]
  | .functionDef =>
    [one "name" .identifier, one "args" (.node .parameters), many "body" statement,
      many "decorator_list" expression, optional "returns" expression]
  | .lambda => [one "args" (.node .parameters), one "body" expression]
  | .classDef =>
    [one "name" .identifier, many "bases" expression, many "keywords" (.node .keyword),
      optional "starargs" expression, optional "kwargs" expression, many "body" statement,
      many "decorator_list" expression]
  | .assign => [many "targets" expression, one "value" expression]
  | .augAssign => [one "target" expression, one "op" (.node .operator), one "value" expression]
  | .importNames => [many "names" (.node .alias)]
  | .importFrom =>
    [optional "module" .identifier, many "names" (.node .alias), optional "level" .integer]
  | .tryBlock =>
    [many "body" statement, many "handlers" (.node .handler), many "orelse" statement,
      many "finalbody" statement]
  | .exceptHandler =>
    [optional "type" expression, optional "name" .identifier, many "body" statement]

/-- Whether the production is one for a node with the rule. Where all children are visited, each of
them has to have a rule. -/
def suits (p : Production) : Rule → Bool
  | .descend => p.fields.all (·.content.isVisited)
  | .ignore => p.fields.all fun f => match f.content with
    | .node _ => false
    | _ => true
  | rule => p.fields == rule.fields

variable {p : Production}

theorem suits_of_mem (hp : p ∈ d.grammar) :
    (p.category.isVisited = true → ∃ rule, Rule.of? p.kind = some rule) ∧
      ∀ rule, Rule.of? p.kind = some rule → rule.suits p = true := by
  have htable : ∀ p ∈ shared ++ annotatedBeside ++ annotatedWith,
      (Rule.of? p.kind).elim (!p.category.isVisited) (suits p) = true := by
    decide +kernel
  have hall : p ∈ shared ++ annotatedBeside ++ annotatedWith := by
    cases d with
    | two | twoSeven => cases hp
    | threeThree => exact mem_append_left _ hp
    | threeFour =>
      rcases mem_append.mp hp with hp | hp
      · exact mem_append_left _ (mem_append_left _ hp)
      · exact mem_append_right _ hp
  have h := htable p hall
  cases hrule : Rule.of? p.kind with
  | some rule =>
    rw [hrule] at h
    exact ⟨fun _ => ⟨rule, rfl⟩, fun _ hsome => Option.some.inj hsome ▸ h⟩
  | none =>
    rw [hrule] at h
    refine ⟨fun hvisited => ?_, fun _ hsome => nomatch hsome⟩
    rw [Option.elim_none, hvisited] at h
    cases h

/-- A rule that is made for some kinds of nodes knows all their fields. -/
theorem fields_eq {rule : Rule} (hp : p ∈ d.grammar)
    (hrule : Rule.of? p.kind = some rule) (hown : rule.fields ≠ []) : p.fields = rule.fields := by
  have hsuits := (suits_of_mem hp).2 rule hrule
  cases rule with
  | descend | ignore => exact absurd rfl hown
  | _ => exact eq_of_beq hsuits

end Rule

theorem NodeOf.of?_name : Rule.of? "Name" = some .name := by decide

/-- Where the fields fit the rules, each is found under the name of its rule. -/
theorem Production.lookup_of_fieldsFit {rules : List FieldRule} {fields : List (String × Value)}
    (h : fieldsFit d rules fields = true) (hnames : (rules.map (·.name)).Nodup) :
    (∀ f ∈ rules, ∃ v, fields.lookup f.name = some v ∧ f.fits d v = true) ∧
      ∀ e ∈ fields, ∃ f ∈ rules, f.name = e.1 ∧ f.fits d e.2 = true ∧
        fields.lookup e.1 = some e.2 := by
  fun_induction fieldsFit d rules fields with
  | case1 => simp
  | case2 f rules name v fields ih =>
    simp only [Bool.and_eq_true, beq_iff_eq] at h
    obtain ⟨⟨rfl, hfits⟩, hrest⟩ := h
    obtain ⟨hfresh, hnames⟩ := nodup_cons.mp hnames
    obtain ⟨hrules, hfields⟩ := ih hrest hnames
    have hother {g : FieldRule} (hg : g ∈ rules) :
        lookup g.name ((f.name, v) :: fields) = lookup g.name fields := by
      have hne : g.name ≠ f.name := fun he => hfresh (mem_map.mpr ⟨g, hg, he⟩)
      rw [lookup_cons, beq_eq_false_iff_ne.mpr hne]
    refine ⟨forall_mem_cons.mpr ⟨⟨v, lookup_cons_self, hfits⟩, fun g hg => ?_⟩,
      forall_mem_cons.mpr ⟨⟨f, mem_cons_self, rfl, hfits, lookup_cons_self⟩, fun e he => ?_⟩⟩
    · rw [hother hg]
      exact hrules g hg
    · obtain ⟨g, hg, hname, hfits, hlookup⟩ := hfields e he
      rw [← hname, ← hother hg, hname] at hlookup
      exact ⟨g, mem_cons_of_mem _ hg, hname, hfits, hlookup⟩
  | case3 => cases h

namespace NodeOf

/-- The node, apart from what is further below, is made by the production. -/
structure MadeBy (d : Dialect) (n : Node) (p : Production) : Prop where
  mem : p ∈ d.grammar
  kind_eq : p.kind = n.kind
  get : ∀ f ∈ p.fields, ∃ v, n.get f.name = .ok v ∧ f.fits d v = true
  field : ∀ e ∈ n.fields, ∃ f ∈ p.fields, f.name = e.1 ∧ f.fits d e.2 = true ∧
    n.get e.1 = .ok e.2
  position : p.category.isPlaced = true → ∃ line column, n.position = some (.of line column)

variable {p : Production} {f : FieldRule} {category : Category}

theorem exists_madeBy (h : n.isFormed d = true) : ∃ p, n.MadeBy d p := by
  obtain ⟨p, hp, hadmits⟩ := any_eq_true.mp h
  simp only [Production.admits, Bool.and_eq_true, beq_iff_eq] at hadmits
  obtain ⟨⟨hkind, hfields⟩, hplaced⟩ := hadmits
  obtain ⟨hrules, hfields⟩ := Production.lookup_of_fieldsFit hfields (d.nodup_fields p hp)
  have hget {name : String} {v : Value} (hv : n.fields.lookup name = some v) :
      n.get name = .ok v := by simp [NodeOf.get, field?, hv]
  refine ⟨p, hp, hkind, fun f hf => (hrules f hf).imp fun v => And.imp_left hget,
    fun e he => ?_, fun hp => ?_⟩
  · obtain ⟨f, hf, hname, hfits, hlookup⟩ := hfields e he
    exact ⟨f, hf, hname, hfits, hget hlookup⟩
  · rw [hp, Bool.not_true, Bool.false_or] at hplaced
    split at hplaced
    · rename_i line column hposition
      exact ⟨line, column, hposition⟩
    · cases hplaced

section

variable (h : n.MadeBy d p)

include h

theorem MadeBy.categoryOf_eq : d.categoryOf n.kind = some p.category :=
  h.kind_eq ▸ Dialect.categoryOf_of_mem h.mem

theorem MadeBy.category_eq (hcategory : d.categoryOf n.kind = some category) :
    p.category = category :=
  Option.some.inj (h.categoryOf_eq.symm.trans hcategory)

/-- The dialects of the grammar have no tuples as parameters. -/
theorem MadeBy.isTwo_eq : d.isTwo = false := by
  cases d with
  | two | twoSeven => cases h.mem
  | threeThree | threeFour => rfl

theorem MadeBy.suits {rule : Rule} (hrule : Rule.of? n.kind = some rule) : rule.suits p = true :=
  (Rule.suits_of_mem h.mem).2 rule (h.kind_eq ▸ hrule)

theorem MadeBy.fields_eq {rule : Rule} (hrule : Rule.of? n.kind = some rule)
    (hown : rule.fields ≠ []) : p.fields = rule.fields :=
  Rule.fields_eq h.mem (h.kind_eq ▸ hrule) hown

end

end NodeOf

section Children

variable {f : FieldRule}

theorem Content.fits_node {category : Category} (h : (Content.node category).fits d v = true) :
    ∃ m, v = .node m ∧ d.categoryOf m.kind = some category := by
  cases v with
  | node m => exact ⟨m, rfl, by simpa [fits] using h⟩
  | _ => cases h

theorem Content.fits_identifier (h : Content.identifier.fits d v = true) :
    ∃ s, v = .text s ∧ s ≠ "" := by
  cases v with
  | text s => exact ⟨s, rfl, by simpa [fits] using h⟩
  | _ => cases h

theorem Content.not_fits_list (content : Content) (items : List Value) :
    content.fits d (.list items) = false := by
  cases content <;> rfl

/-- A field holds one value, or a list of values. -/
theorem FieldRule.fits_cases (h : f.fits d v = true) :
    ((f.arity = .one ∨ f.arity = .optional) ∧ (v = .null ∨ f.content.fits d v = true)) ∨
      (f.arity = .many ∨ f.arity = .manyOptional) ∧ ∃ items, v = .list items ∧
        ∀ w ∈ items, w = .null ∨ f.content.fits d w = true := by
  have hnull {w : Value} (hw : (w.isNull || f.content.fits d w) = true) :
      w = .null ∨ f.content.fits d w = true := by
    cases w with
    | null => exact .inl rfl
    | _ => exact .inr (by simpa [Value.isNull] using hw)
  unfold fits at h
  split at h
  · rename_i harity
    exact .inl ⟨.inl harity, .inr h⟩
  · rename_i harity
    exact .inl ⟨.inr harity, hnull h⟩
  · rename_i items harity
    exact .inr ⟨.inl harity, items, rfl, fun w hw => .inr (all_eq_true.mp h w hw)⟩
  · rename_i items harity
    exact .inr ⟨.inr harity, items, rfl, fun w hw => hnull (all_eq_true.mp h w hw)⟩
  · cases h

theorem FieldRule.fits_single (h : f.fits d v = true)
    (harity : f.arity = .one ∨ f.arity = .optional) : v = .null ∨ f.content.fits d v = true := by
  rcases fits_cases h with ⟨-, hv⟩ | ⟨hmany, -⟩
  · exact hv
  · rcases harity with harity | harity <;> simp [harity] at hmany

theorem FieldRule.fits_list (h : f.fits d v = true)
    (harity : f.arity = .many ∨ f.arity = .manyOptional) :
    ∃ items, v = .list items ∧ ∀ w ∈ items, w = .null ∨ f.content.fits d w = true := by
  rcases fits_cases h with ⟨hone, -⟩ | ⟨-, hlist⟩
  · rcases harity with harity | harity <;> simp [harity] at hone
  · exact hlist

/-- A child in the field is the value of the field, or an item of it. -/
theorem FieldRule.child_cases (h : f.fits d v = true) (hm : m ∈ v.children) :
    f.content.fits d (.node m) = true ∧ ((f.arity = .one ∨ f.arity = .optional) ∧ v = .node m ∨
      (f.arity = .many ∨ f.arity = .manyOptional) ∧ ∃ items, v = .list items ∧ .node m ∈ items) := by
  rcases fits_cases h with ⟨harity, rfl | hfits⟩ | ⟨harity, items, rfl, hall⟩
  · cases hm
  · cases v with
    | node k =>
      obtain rfl := mem_singleton.mp hm
      exact ⟨hfits, .inl ⟨harity, rfl⟩⟩
    | list items =>
      rw [Content.not_fits_list] at hfits
      cases hfits
    | _ => cases hm
  · have hm := Value.mem_children_list.mp hm
    exact ⟨(hall _ hm).resolve_left (by simp), .inr ⟨harity, items, rfl, hm⟩⟩

theorem FieldRule.category_of_child (h : f.fits d v = true) (hm : m ∈ v.children) :
    ∃ category, f.content = .node category ∧ d.categoryOf m.kind = some category := by
  obtain ⟨hfits, -⟩ := child_cases h hm
  cases hcontent : f.content with
  | node category => exact ⟨category, rfl, by simpa [hcontent, Content.fits] using hfits⟩
  | _ =>
    rw [hcontent] at hfits
    cases hfits

/-- What is in a field is in the nodes that the field holds: no list stands in a list. -/
theorem FieldRule.nodes_eq_of_fits (h : f.fits d v = true) :
    v.nodes = v.children.flatMap NodeOf.nodes := by
  rcases fits_cases h with ⟨-, rfl | hfits⟩ | ⟨-, items, rfl, hall⟩
  · rfl
  · cases v with
    | node m => exact (flatMap_singleton ..).symm
    | list items =>
      rw [Content.not_fits_list] at hfits
      cases hfits
    | _ => rfl
  · rw [Value.nodes_list, Value.children, filterMap_eq_flatMap_toList, flatMap_assoc]
    refine flatMap_congr fun w hw => ?_
    cases w with
    | node m => exact (flatMap_singleton ..).symm
    | list =>
      have hfits := (hall _ hw).resolve_left (by simp)
      rw [Content.not_fits_list] at hfits
      cases hfits
    | _ => rfl

namespace NodeOf

variable {p : Production} {category : Category}

section

variable (h : n.MadeBy d p)

include h

theorem MadeBy.rule_of_field? (hv : n.field? name = some v) :
    (∃ f ∈ p.fields, f.name = name ∧ f.fits d v = true) ∨ name = "returns" ∧ v = .null := by
  refine (exists_fields_of_field? hv).imp_left ?_
  rintro ⟨before, after, hsplit⟩
  obtain ⟨f, hf, hname, hfits, -⟩ := h.field (name, v) (by simp [hsplit])
  exact ⟨f, hf, hname, hfits⟩

theorem MadeBy.rule_of_get (hget : n.get name = .ok v) (hm : m ∈ v.children) :
    ∃ f ∈ p.fields, f.name = name ∧ f.fits d v = true := by
  refine (h.rule_of_field? (field?_of_get hget)).resolve_right ?_
  rintro ⟨-, rfl⟩
  cases hm

/-- A child stands in a field that the production has, and is of its category. -/
theorem MadeBy.child (hm : m ∈ n.children) : ∃ f ∈ p.fields, ∃ v, n.get f.name = .ok v ∧
    f.fits d v = true ∧ m ∈ v.children ∧ ∃ category, f.content = .node category ∧
      d.categoryOf m.kind = some category := by
  obtain ⟨⟨name, v⟩, hv, hm⟩ := mem_flatMap.mp (n.children_eq ▸ hm)
  obtain ⟨f, hf, rfl, hfits, hget⟩ := h.field _ hv
  exact ⟨f, hf, v, hget, hfits, hm, FieldRule.category_of_child hfits hm⟩

theorem MadeBy.below_eq : n.below = n.children.flatMap nodes := by
  rw [below, children_eq, flatMap_assoc]
  refine flatMap_congr fun e he => ?_
  obtain ⟨f, -, -, hfits, -⟩ := h.field e he
  exact FieldRule.nodes_eq_of_fits hfits

theorem MadeBy.exists_child (hx : x ∈ n.below) : ∃ c ∈ n.children, x ∈ c.nodes :=
  mem_flatMap.mp (h.below_eq ▸ hx)

/-- Words have nothing below them. -/
theorem MadeBy.below_eq_nil (hword : p.category.isWord = true) : n.below = [] := by
  have htable : ∀ p ∈ d.grammar, p.category.isWord = true →
      ∀ f ∈ p.fields, f.content = .identifier := by
    cases d <;> decide
  refine eq_nil_iff_forall_not_mem.mpr fun x hx => ?_
  obtain ⟨c, hc, -⟩ := h.exists_child hx
  obtain ⟨f, hf, -, -, -, -, category, hcontent, -⟩ := h.child hc
  rw [htable p h.mem hword f hf] at hcontent
  cases hcontent

end

/-- Whether the node and all that is below it are of the grammar. -/
def IsWhole (d : Dialect) (n : Node) : Prop := ∀ m ∈ n.nodes, m.isFormed d = true

theorem IsWhole.formed (h : n.IsWhole d) : n.isFormed d = true := h n n.self_mem_nodes

theorem Conforms.whole (h : n.Conforms d) : n.IsWhole d := h.formed

theorem IsWhole.part (h : n.IsWhole d) (hm : m ∈ n.nodes) : m.IsWhole d := fun k hk =>
  h k ((sublist_of_mem_nodes n hm).subset hk)

theorem IsWhole.child (h : n.IsWhole d) (hm : m ∈ n.children) : m.IsWhole d :=
  h.part (mem_nodes_of_mem_children hm)

/-- Whether all nodes of the kind have the field. -/
def HasField (d : Dialect) (n : Node) (f : FieldRule) : Prop :=
  ∀ p ∈ d.grammar, p.kind = n.kind → f ∈ p.fields

instance {P : Dialect → Prop} [DecidablePred P] : Decidable (∀ d, P d) :=
  decidable_of_iff (P .two ∧ P .twoSeven ∧ P .threeThree ∧ P .threeFour)
    ⟨fun ⟨_, _, _, _⟩ d => by cases d <;> assumption, fun h => ⟨h _, h _, h _, h _⟩⟩

theorem hasField_of_rule {rule : Rule} (hrule : Rule.of? n.kind = some rule)
    (hf : f ∈ rule.fields) : n.HasField d f :=
  fun _ hp hkind => Rule.fields_eq hp (hkind ▸ hrule) (ne_nil_of_mem hf) ▸ hf

theorem hasField_of_category (hcategory : d.categoryOf n.kind = some category)
    (hf : ∀ d : Dialect, ∀ p ∈ d.grammar, p.category = category → f ∈ p.fields) : n.HasField d f :=
  fun p hp hkind => hf d p hp <| Option.some.inj <|
    (Dialect.categoryOf_of_mem hp).symm.trans (hkind ▸ hcategory)

theorem hasField_of_kind {kind : String} (hkind : n.kind = kind)
    (hf : ∀ d : Dialect, ∀ p ∈ d.grammar, p.kind = kind → f ∈ p.fields) : n.HasField d f :=
  fun p hp heq => hf d p hp (heq.trans hkind)

section

variable (h : n.isFormed d = true)

include h

theorem exists_get (hf : n.HasField d f) : ∃ v, n.get f.name = .ok v ∧ f.fits d v = true := by
  obtain ⟨p, hp⟩ := exists_madeBy h
  exact hp.get f (hf p hp.mem hp.kind_eq)

theorem exists_identifier (name : String) (hf : n.HasField d (.one name .identifier)) :
    ∃ s, n.get name = .ok (.text s) ∧ s ≠ "" := by
  obtain ⟨v, hget, hfits⟩ := exists_get h hf
  obtain ⟨s, rfl, hne⟩ := Content.fits_identifier hfits
  exact ⟨s, hget, hne⟩

theorem exists_optional_identifier (name : String) (hf : n.HasField d (.optional name .identifier)) :
    n.get name = .ok .null ∨ ∃ s, n.get name = .ok (.text s) ∧ s ≠ "" := by
  obtain ⟨v, hget, hfits⟩ := exists_get h hf
  rcases FieldRule.fits_single hfits (.inr rfl) with rfl | hfits
  · exact .inl hget
  · obtain ⟨s, rfl, hne⟩ := Content.fits_identifier hfits
    exact .inr ⟨s, hget, hne⟩

theorem exists_list (name : String) (content : Content) (hf : n.HasField d (.many name content)) :
    ∃ items, n.get name = .ok (.list items) ∧ ∀ v ∈ items, content.fits d v = true := by
  obtain ⟨v, hget, hfits⟩ := exists_get h hf
  obtain ⟨items, rfl, -⟩ := FieldRule.fits_list hfits (.inl rfl)
  exact ⟨items, hget, all_eq_true.mp hfits⟩

theorem exists_identifiers (name : String) (hf : n.HasField d (.many name .identifier)) :
    ∃ names : List String, n.get name = .ok (.list (names.map .text)) := by
  obtain ⟨items, hget, hitems⟩ := exists_list h name _ hf
  have hnames : items ∈ Set.range (map Value.text) := by
    rw [Set.range_list_map]
    intro v hv
    obtain ⟨s, rfl, -⟩ := Content.fits_identifier (hitems v hv)
    exact ⟨s, rfl⟩
  obtain ⟨names, rfl⟩ := hnames
  exact ⟨names, hget⟩

end

/-- A node with a place, of the grammar with all that is below it. -/
structure IsPlaced (d : Dialect) (n : Node) : Prop where
  whole : n.IsWhole d
  position : ∃ line column, n.position = some (.of line column)

theorem IsPlaced.formed (h : n.IsPlaced d) : n.isFormed d = true := h.whole.formed

section

variable (h : n.IsWhole d)

include h

theorem isPlaced_of_category (hcategory : d.categoryOf n.kind = some category)
    (hplaced : category.isPlaced = true) : n.IsPlaced d := by
  obtain ⟨p, hp⟩ := exists_madeBy h.formed
  exact ⟨h, hp.position (hp.category_eq hcategory ▸ hplaced)⟩

theorem exists_node (name : String) (category : Category)
    (hf : n.HasField d (.one name (.node category))) :
    ∃ m, n.get name = .ok (.node m) ∧ d.categoryOf m.kind = some category ∧ m.IsWhole d := by
  obtain ⟨v, hget, hfits⟩ := exists_get h.formed hf
  obtain ⟨m, rfl, hcategory⟩ := Content.fits_node hfits
  exact ⟨m, hget, hcategory, h.child (mem_children_of_get hget mem_cons_self)⟩

theorem exists_optional_node (name : String) (category : Category)
    (hf : n.HasField d (.optional name (.node category))) : n.get name = .ok .null ∨
      ∃ m, n.get name = .ok (.node m) ∧ d.categoryOf m.kind = some category ∧ m.IsWhole d := by
  obtain ⟨v, hget, hfits⟩ := exists_get h.formed hf
  rcases FieldRule.fits_single hfits (.inr rfl) with rfl | hfits
  · exact .inl hget
  · obtain ⟨m, rfl, hcategory⟩ := Content.fits_node hfits
    exact .inr ⟨m, hget, hcategory, h.child (mem_children_of_get hget mem_cons_self)⟩

theorem exists_nodes (name : String) (category : Category)
    (hf : n.HasField d (.many name (.node category))) :
    ∃ ms : List Node, n.get name = .ok (.list (ms.map .node)) ∧
      ∀ m ∈ ms, d.categoryOf m.kind = some category ∧ m.IsWhole d := by
  obtain ⟨items, hget, hitems⟩ := exists_list h.formed name _ hf
  have hnodes : items ∈ Set.range (map Value.node) := by
    rw [Set.range_list_map]
    intro v hv
    obtain ⟨m, rfl, -⟩ := Content.fits_node (hitems v hv)
    exact ⟨m, rfl⟩
  obtain ⟨ms, rfl⟩ := hnodes
  refine ⟨ms, hget, fun m hm => ?_⟩
  have hitem : .node m ∈ ms.map Value.node := mem_map_of_mem hm
  obtain ⟨_, ⟨⟩, hcategory⟩ := Content.fits_node (hitems _ hitem)
  exact ⟨hcategory, h.child (mem_children_of_get hget (Value.mem_children_list.mpr hitem))⟩

end

end NodeOf

end Children

end ScopeLint
