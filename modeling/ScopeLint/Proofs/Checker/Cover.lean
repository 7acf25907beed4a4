import ScopeLint.Proofs.Checker.CommonAncestor
import ScopeLint.Proofs.Checker.Regions
import ScopeLint.Proofs.Grammar

/-! # What a rule covers

In a tree of the grammar, every phrase below a node is in something that is visited with the node, now
or later, or overlooked; and what is visited has a rule of its own. -/
namespace ScopeLint

open List

namespace NodeOf

/-- Whether the node is a statement or an expression. -/
def isPhrase (d : Dialect) (n : Node) : Bool :=
  d.categoryOf n.kind == some .statement || d.categoryOf n.kind == some .expression

/-- The field has `m` for its value, or among its items. -/
def Holds (n : Node) (name : String) (m : Node) : Prop := ∃ v, n.get name = .ok v ∧ m ∈ v.children

variable {d : Dialect} {n m k x : Node} {p : Production} {f : FieldRule} {v : Value}
  {category : Category} {rule : Rule} {name : String}

section Fields

theorem Holds.mem_children (h : n.Holds name m) : m ∈ n.children := by
  obtain ⟨v, hget, hm⟩ := h
  exact mem_children_of_get hget hm

theorem holds_of_itemsIn (hm : .node m ∈ (Value.node n).itemsIn name) : n.Holds name m := by
  obtain ⟨v, hv, hm⟩ := mem_flatMap.mp hm
  cases hget : (Value.node n).get name with
  | error => simp [Value.valueIn, hget, Except.toOption] at hv
  | ok w =>
    obtain rfl := mem_singleton.mp (Value.valueIn_of_get hget ▸ hv)
    cases hitems : v.items with
    | error =>
      rw [hitems] at hm
      cases hm
    | ok items =>
      rw [hitems] at hm
      exact ⟨v, hget, Value.mem_children_of_items hitems hm⟩

theorem holds_of_valueIn (hm : .node m ∈ (Value.node n).valueIn name) : n.Holds name m := by
  cases hget : (Value.node n).get name with
  | error => simp [Value.valueIn, hget, Except.toOption] at hm
  | ok w =>
    obtain rfl := mem_singleton.mp (Value.valueIn_of_get hget ▸ hm)
    exact ⟨_, hget, mem_cons_self⟩

theorem mem_deferred_iff : .node m ∈ n.deferred ↔ n.Holds "body" m := by
  unfold deferred Holds
  cases n.get "body" with
  | error => simp
  | ok v =>
    cases v with
    | list items => simp [Value.mem_children_list]
    | node k => simp [Value.children]
    | _ => simp [Value.children]

variable (h : n.MadeBy d p)

include h

theorem MadeBy.mem_itemsIn_iff (name : String)
    (hf : ∃ f ∈ p.fields, f.name = name ∧ (f.arity = .many ∨ f.arity = .manyOptional)) :
    .node m ∈ (Value.node n).itemsIn name ↔ n.Holds name m := by
  obtain ⟨f, hf, rfl, harity⟩ := hf
  refine ⟨holds_of_itemsIn, ?_⟩
  rintro ⟨v, hget, hm⟩
  obtain ⟨w, hw, hfits⟩ := h.get f hf
  cases hget.symm.trans hw
  obtain ⟨-, ⟨hother, -⟩ | ⟨-, items, rfl, hm⟩⟩ := FieldRule.child_cases hfits hm
  · rcases harity with harity | harity <;> simp [harity] at hother
  · rwa [Value.itemsIn_of_get (v := .node n) hget rfl]

theorem MadeBy.mem_valueIn_iff (name : String)
    (hf : ∃ f ∈ p.fields, f.name = name ∧ (f.arity = .one ∨ f.arity = .optional)) :
    .node m ∈ (Value.node n).valueIn name ↔ n.Holds name m := by
  obtain ⟨f, hf, rfl, harity⟩ := hf
  refine ⟨holds_of_valueIn, ?_⟩
  rintro ⟨v, hget, hm⟩
  obtain ⟨w, hw, hfits⟩ := h.get f hf
  cases hget.symm.trans hw
  obtain ⟨-, ⟨-, rfl⟩ | ⟨hother, -⟩⟩ := FieldRule.child_cases hfits hm
  · exact Value.valueIn_of_get (v := .node n) hget ▸ mem_singleton_self _
  · rcases harity with harity | harity <;> simp [harity] at hother

theorem MadeBy.categoryOf_of_holds (hm : n.Holds name m)
    (hf : ∀ f ∈ p.fields, f.name = name → f.content = .node category) :
    d.categoryOf m.kind = some category := by
  obtain ⟨v, hget, hm⟩ := hm
  obtain ⟨f, hmem, hname, hfits⟩ := h.rule_of_get hget hm
  obtain ⟨other, hother, hcategory⟩ := FieldRule.category_of_child hfits hm
  cases (hf f hmem hname).symm.trans hother
  exact hcategory

end Fields

theorem mem_flatMap_valueIn {vs : List Value} : .node k ∈ vs.flatMap (·.valueIn name) ↔
    ∃ a, .node a ∈ vs ∧ .node k ∈ (Value.node a).valueIn name := by
  rw [mem_flatMap]
  constructor
  · rintro ⟨v, hv, hk⟩
    cases v with
    | node a => exact ⟨a, hv, hk⟩
    | _ => cases hk
  · rintro ⟨a, ha, hk⟩
    exact ⟨_, ha, hk⟩

/-- Around a function stand the expressions in its parameters, and the annotations that each parameter
has for itself. -/
theorem MadeBy.mem_allAround_iff (h : n.MadeBy d p) (hp : p.category = .parameters) :
    .node k ∈ allAround d (.node n) ↔ ∃ f ∈ p.fields,
      f.content = .node .expression ∧ n.Holds f.name k ∨
      f.content = .node .parameter ∧
        ∃ a, n.Holds f.name a ∧ .node k ∈ (Value.node a).valueIn "annotation" := by
  simp only [allAround, starredAnnotations_eq, plainAnnotations, annotationStarred, parameterDefaults]
  cases d with
  | two | twoSeven => cases h.mem
  | threeThree =>
    have htable : ∀ p ∈ Dialect.threeThree.grammar, p.category = .parameters →
        p ∈ Grammar.annotatedBeside := by
      decide
    obtain rfl := mem_singleton.mp (htable p h.mem hp)
    simp [Dialect.isTwo, mem_flatMap_valueIn, h.mem_itemsIn_iff "args" (by decide),
      h.mem_itemsIn_iff "kwonlyargs" (by decide), h.mem_valueIn_iff "varargannotation" (by decide),
      h.mem_valueIn_iff "kwargannotation" (by decide), h.mem_itemsIn_iff "defaults" (by decide),
      h.mem_itemsIn_iff "kw_defaults" (by decide), FieldRule.many, FieldRule.optional,
      FieldRule.manyOptional, Grammar.expression, -mem_flatMap]
    grind
  | threeFour =>
    have htable : ∀ p ∈ Dialect.threeFour.grammar, p.category = .parameters →
        p ∈ Grammar.annotatedWith.tail := by
      decide
    obtain rfl := mem_singleton.mp (htable p h.mem hp)
    simp [Dialect.isTwo, mem_flatMap_valueIn, h.mem_itemsIn_iff "args" (by decide),
      h.mem_itemsIn_iff "kwonlyargs" (by decide), h.mem_valueIn_iff "vararg" (by decide),
      h.mem_valueIn_iff "kwarg" (by decide), h.mem_itemsIn_iff "defaults" (by decide),
      h.mem_itemsIn_iff "kw_defaults" (by decide), FieldRule.many, FieldRule.optional,
      FieldRule.manyOptional, Grammar.expression, -mem_flatMap]
    grind

theorem mem_below_of_isPhrase (hx : x.isPhrase d = true) (hm : x ∈ m.nodes)
    (hcategory : d.categoryOf m.kind = some category) (hother : category ≠ .statement)
    (hother' : category ≠ .expression) : x ∈ m.below := by
  rw [m.nodes_eq] at hm
  rcases mem_cons.mp hm with rfl | hm
  · simp [isPhrase, hcategory, hother, hother'] at hx
  · exact hm

/-- What stands around a function is visited with it, or passed over. -/
theorem mem_outside_or_passedOver {args : Node} (hargs : n.get "args" = .ok (.node args))
    (hk : .node k ∈ allAround d (.node args)) : .node k ∈ n.outside d ∨
      .node k ∈ ((Value.node n).valueIn "args").flatMap fun args =>
        n.passedOver d args "vararg" ++ n.passedOver d args "kwarg" := by
  rw [outside, Value.valueIn_of_get (v := .node n) hargs, flatMap_singleton,
    flatMap_singleton, mem_filter]
  have hstarred {name : String} (hmem : .node k ∈ annotationStarred d (.node args) name) :
      n.has "returns" = true ∧ .node k ∈ annotationGiven d (.node args) name ∨
        .node k ∈ n.passedOver d (.node args) name := by
    unfold annotationGiven passedOver
    cases n.has "returns" <;> cases ((Value.node args).valueIn name).any Value.truthy <;>
      simpa using hmem
  simp only [allAround, starredAnnotations_eq, mem_append] at hk
  simp only [mem_append]
  rcases hk with (hk | hk | hk) | hk
  · exact .inl ⟨.inl (.inl (.inl hk)), rfl⟩
  · rcases hstarred hk with ⟨hhas, hk⟩ | hk
    · exact .inl ⟨.inl (.inl (.inr (by simp [hhas, hk]))), rfl⟩
    · exact .inr (.inl hk)
  · rcases hstarred hk with ⟨hhas, hk⟩ | hk
    · exact .inl ⟨.inl (.inl (.inr (by simp [hhas, hk]))), rfl⟩
    · exact .inr (.inr hk)
  · exact .inl ⟨.inr hk, rfl⟩

theorem categoryOf_of_ruled (h : n.isFormed d = true) (hrule : Rule.of? n.kind = some rule)
    (hown : rule.fields ≠ []) (hm : n.Holds name m)
    (hfor : ∀ f ∈ rule.fields, f.name = name → f.content = .node category) :
    d.categoryOf m.kind = some category := by
  obtain ⟨p, hp⟩ := exists_madeBy h
  exact hp.categoryOf_of_holds hm (hp.fields_eq hrule hown ▸ hfor)

theorem mem_children_of_visited (hfunction : n.isFunction = false) (hm : .node m ∈ n.visited d) :
    m ∈ n.children := by
  have hitems {name : String} (hm : .node m ∈ (Value.node n).itemsIn name) : m ∈ n.children :=
    (holds_of_itemsIn hm).mem_children
  have hvalue {name : String} (hm : .node m ∈ (Value.node n).valueIn name) : m ∈ n.children :=
    (holds_of_valueIn hm).mem_children
  cases hrule : Rule.of? n.kind with
  | none => simp [visited, taken, hrule, hfunction] at hm
  | some rule =>
    rw [n.visited_eq_handed d hrule hfunction] at hm
    cases rule with
    | functionDef | lambda => simp [isFunction, hrule] at hfunction
    | descend | forLoop | call | exceptHandler =>
      obtain ⟨k, hk, heq⟩ := mem_map.mp hm
      cases heq
      exact hk
    | ignore | globalNames | name | importNames | importFrom => cases hm
    | listComp | generatorExp => exact (mem_append.mp hm).elim hitems hvalue
    | assign => exact (mem_append.mp hm).elim hvalue hitems
    | augAssign => exact (mem_append.mp hm).elim hvalue hvalue
    | dictComp =>
      rcases mem_append.mp hm with hm | hm
      · exact (mem_append.mp hm).elim hitems hvalue
      · exact hvalue hm
    | classDef =>
      simp only [Rule.handed, mem_append] at hm
      rcases hm with ((hm | hm) | hm) | hm
      · exact hitems hm
      · exact hitems hm
      · split at hm
        · cases hm
        · exact hitems hm
      · exact hitems hm
    | tryBlock =>
      rcases mem_append.mp hm with hm | hm
      · exact hitems hm
      · obtain ⟨k, hk, heq⟩ := mem_map.mp hm
        cases heq
        exact (mem_filter.mp hk).1

/-- A node of such a category has a rule. -/
theorem exists_rule_of_category (h : d.categoryOf n.kind = some category)
    (hvisited : category.isVisited = true) : ∃ rule, Rule.of? n.kind = some rule := by
  obtain ⟨p, hp, hkind, rfl⟩ := Dialect.exists_of_categoryOf h
  rw [← hkind]
  exact (Rule.suits_of_mem hp).1 hvisited

section

variable (hwhole : n.IsWhole d)

include hwhole

theorem exists_field_of_isPhrase (hbelow : x ∈ n.below) (hx : x.isPhrase d = true) :
    ∃ p, n.MadeBy d p ∧ ∃ f ∈ p.fields, ∃ category, f.content = .node category ∧
      category.isWord = false ∧ ∃ m, n.Holds f.name m ∧ d.categoryOf m.kind = some category ∧
        x ∈ m.nodes := by
  obtain ⟨p, hp⟩ := exists_madeBy hwhole.formed
  obtain ⟨m, hm, hxm⟩ := hp.exists_child hbelow
  obtain ⟨f, hf, v, hget, -, hmv, category, hcontent, hcategory⟩ := hp.child hm
  refine ⟨p, hp, f, hf, category, hcontent, ?_, m, ⟨v, hget, hmv⟩, hcategory, hxm⟩
  -- a word has nothing below it, and is no phrase itself
  cases hword : category.isWord with
  | false => rfl
  | true =>
    obtain ⟨q, hq⟩ := exists_madeBy (hwhole.child hm).formed
    have hxbelow := mem_below_of_isPhrase hx hxm hcategory (by rintro rfl; cases hword)
      (by rintro rfl; cases hword)
    rw [hq.below_eq_nil (hq.category_eq hcategory ▸ hword)] at hxbelow
    cases hxbelow

theorem categoryOf_of_allAround (hcategory : d.categoryOf n.kind = some .parameters)
    (hm : .node m ∈ allAround d (.node n)) : d.categoryOf m.kind = some .expression := by
  obtain ⟨p, hp⟩ := exists_madeBy hwhole.formed
  obtain ⟨f, hf, ⟨hcontent, hm⟩ | ⟨hcontent, a, ha, hm⟩⟩ :=
    (hp.mem_allAround_iff (hp.category_eq hcategory)).mp hm
  · exact hp.categoryOf_of_holds hm fun g hg hname =>
      inj_on_of_nodup_map (d.nodup_fields p hp.mem) hg hf hname ▸ hcontent
  · -- the annotation of a parameter
    have htable : ∀ d : Dialect, ∀ p ∈ d.grammar, p.category = .parameter →
        ∀ f ∈ p.fields, f.name = "annotation" → f.content = .node .expression := by
      decide
    have hparameter : d.categoryOf a.kind = some .parameter := hp.categoryOf_of_holds ha
      fun g hg hname => inj_on_of_nodup_map (d.nodup_fields p hp.mem) hg hf hname ▸ hcontent
    obtain ⟨q, hq⟩ := exists_madeBy (hwhole.child ha.mem_children).formed
    exact hq.categoryOf_of_holds (holds_of_valueIn hm)
      (htable d q hq.mem (hq.category_eq hparameter))

theorem categoryOf_of_outside (hfunction : n.isFunction = true) (hm : .node m ∈ n.outside d) :
    d.categoryOf m.kind = some .expression := by
  obtain ⟨rule, hrule, hargs, hreturns⟩ : ∃ rule, Rule.of? n.kind = some rule ∧
      .one "args" (.node .parameters) ∈ rule.fields ∧
      ∀ f ∈ rule.fields, f.name = "returns" → f.content = .node .expression := by
    simp only [isFunction, Bool.or_eq_true, beq_iff_eq] at hfunction
    rcases hfunction with hrule | hrule
    · exact ⟨_, hrule, by decide, by decide⟩
    · exact ⟨_, hrule, by decide, by decide⟩
  obtain ⟨args, hmem, hm⟩ := mem_flatMap.mp (mem_filter.mp hm).1
  obtain ⟨a, hget, hcategory, hwhole'⟩ := exists_node hwhole _ _ (hasField_of_rule hrule hargs)
  rw [Value.valueIn_of_get (v := .node n) hget, mem_singleton] at hmem
  subst hmem
  have haround (hm : .node m ∈ allAround d (.node a)) := categoryOf_of_allAround hwhole' hcategory hm
  have hgiven {name : String} (hm : .node m ∈ annotationGiven d (.node a) name) :=
    (annotationGiven_sublist d (.node a) name).subset hm
  simp only [mem_append] at hm
  simp only [allAround, starredAnnotations_eq, mem_append] at haround
  rcases hm with ((hm | hm) | hm) | hm
  · exact haround (.inl (.inl hm))
  · split at hm
    · rcases mem_append.mp hm with hm | hm
      · exact haround (.inl (.inr (.inl (hgiven hm))))
      · exact haround (.inl (.inr (.inr (hgiven hm))))
    · cases hm
  · exact categoryOf_of_ruled hwhole.formed hrule (ne_nil_of_mem hargs) (holds_of_valueIn hm)
      hreturns
  · exact haround (.inr hm)

theorem category_of_visited (hm : .node m ∈ n.visited d) :
    ∃ category : Category, d.categoryOf m.kind = some category ∧ category.isVisited = true := by
  have hself := hwhole.formed
  cases hfunction : n.isFunction with
  | false =>
    obtain ⟨p, hp⟩ := exists_madeBy hself
    obtain ⟨f, hf, -, -, -, -, category, hcontent, hcategory⟩ :=
      hp.child (mem_children_of_visited hfunction hm)
    refine ⟨category, hcategory, ?_⟩
    suffices hvisited : f.content.isVisited = true by rwa [hcontent] at hvisited
    cases hrule : Rule.of? n.kind with
    | none => simp [visited, taken, hrule, hfunction] at hm
    | some rule =>
      have hsuits := hp.suits hrule
      rw [n.visited_eq_handed d hrule hfunction] at hm
      cases rule with
      | functionDef | lambda => simp [isFunction, hrule] at hfunction
      | ignore | importNames | importFrom => cases hm
      | descend => exact all_eq_true.mp hsuits f hf
      | _ =>
        rw [eq_of_beq hsuits] at hf
        clear hcontent
        revert f
        decide
  | true =>
    have houtside (hm : .node m ∈ n.outside d) :
        ∃ category : Category, d.categoryOf m.kind = some category ∧ category.isVisited = true :=
      ⟨.expression, categoryOf_of_outside hwhole hfunction hm, rfl⟩
    simp only [isFunction, Bool.or_eq_true, beq_iff_eq] at hfunction
    rcases hfunction with hrule | hrule
    · simp only [n.visited_functionDef d hrule, mem_append] at hm
      rcases hm with (hm | hm) | hm
      · exact ⟨.expression, categoryOf_of_ruled hself hrule (by decide) (holds_of_itemsIn hm)
          (by decide), rfl⟩
      · exact houtside hm
      · exact ⟨.statement, categoryOf_of_ruled hself hrule (by decide) (mem_deferred_iff.mp hm)
          (by decide), rfl⟩
    · simp only [n.visited_lambda d hrule, mem_append] at hm
      rcases hm with hm | hm
      · exact houtside hm
      · exact ⟨.expression, categoryOf_of_ruled hself hrule (by decide) (mem_deferred_iff.mp hm)
          (by decide), rfl⟩

/-- A phrase in the parameters of a function is in something that stands around the function. -/
theorem exists_around (hcategory : d.categoryOf n.kind = some .parameters) (hm : x ∈ n.nodes)
    (hx : x.isPhrase d = true) : ∃ k, .node k ∈ allAround d (.node n) ∧ x ∈ k.nodes := by
  have htable : ∀ d : Dialect, ∀ p ∈ d.grammar,
      (p.category = .parameters → ∀ f ∈ p.fields, f.content = .identifier ∨
        f.content = .node .expression ∨ f.content = .node .parameter) ∧
      (p.category = .parameter →
        p.fields = [.one "arg" .identifier, .optional "annotation" Grammar.expression]) := by
    decide
  have hbelow := mem_below_of_isPhrase hx hm hcategory (by decide) (by decide)
  obtain ⟨p, hp, f, hf, category, hcontent, -, k, hk, hcategoryk, hxk⟩ :=
    exists_field_of_isPhrase hwhole hbelow hx
  have hpcategory := hp.category_eq hcategory
  have hiff {k : Node} := hp.mem_allAround_iff (k := k) hpcategory
  rcases (htable d p hp.mem).1 hpcategory f hf with hname | hexpression | hparameter
  · rw [hname] at hcontent
    cases hcontent
  · exact ⟨k, hiff.mpr ⟨f, hf, .inl ⟨hexpression, hk⟩⟩, hxk⟩
  · -- a phrase in a parameter is in its annotation
    cases hcontent.symm.trans hparameter
    have hxbelow := mem_below_of_isPhrase hx hxk hcategoryk (by decide) (by decide)
    obtain ⟨q, hq, g, hg, category, hgcontent, -, a, ha, -, hxa⟩ :=
      exists_field_of_isPhrase (hwhole.child hk.mem_children) hxbelow hx
    have hfields := (htable d q hq.mem).2 (hq.category_eq hcategoryk)
    rcases mem_pair.mp (hfields ▸ hg) with rfl | rfl
    · cases hgcontent
    · refine ⟨a, hiff.mpr ⟨f, hf, .inr ⟨hparameter, k, hk, ?_⟩⟩, hxa⟩
      exact (hq.mem_valueIn_iff "annotation" ⟨_, hg, rfl, .inr rfl⟩).mpr ha

end

section Parts

variable (hp : n.MadeBy d p) (hrule : Rule.of? n.kind = some rule) (hf : f ∈ p.fields)
  (hm : n.Holds f.name m)

include hp hf hm

theorem mem_itemsIn_of_holds (harity : f.arity = .many) : .node m ∈ (Value.node n).itemsIn f.name :=
  (hp.mem_itemsIn_iff f.name ⟨f, hf, rfl, .inl harity⟩).mpr hm

theorem mem_valueIn_of_holds (harity : f.arity = .one ∨ f.arity = .optional) :
    .node m ∈ (Value.node n).valueIn f.name :=
  (hp.mem_valueIn_iff f.name ⟨f, hf, rfl, harity⟩).mpr hm

variable (hcontent : f.content = .node category) (hword : category.isWord = false)

include hrule hcontent hword

omit hm in
/-- A rule that reads nothing but names has no field for phrases. -/
theorem not_mem_nameRules :
    rule ∉ [Rule.ignore, .globalNames, .name, .importNames, .importFrom] := by
  have hsuits := hp.suits hrule
  simp only [mem_cons, not_mem_nil, or_false]
  rintro (rfl | rfl | rfl | rfl | rfl)
  · have hnone := all_eq_true.mp hsuits f hf
    rw [hcontent] at hnone
    cases hnone
  · rw [eq_of_beq hsuits] at hf
    obtain rfl := mem_singleton.mp hf
    cases hcontent
  · rw [eq_of_beq hsuits] at hf
    rcases mem_pair.mp hf with rfl | rfl <;> cases hcontent
    cases hword
  · rw [eq_of_beq hsuits] at hf
    obtain rfl := mem_singleton.mp hf
    cases hcontent
    cases hword
  · rw [eq_of_beq hsuits] at hf
    simp only [Rule.fields, mem_cons, not_mem_nil, or_false] at hf
    rcases hf with rfl | rfl | rfl <;> cases hcontent
    cases hword

/-- The rules but those for functions and classes hand on what their fields hold. -/
theorem mem_handed_of_holds (hn : n.Distinct) (hfunction : n.isFunction = false)
    (hclass : rule ≠ .classDef) : .node m ∈ rule.handed d n := by
  have hitems := mem_itemsIn_of_holds hp hf hm
  have hvalue := mem_valueIn_of_holds hp hf hm
  have hnames := not_mem_nameRules hp hrule hf hcontent hword
  have hsuits := hp.suits hrule
  cases rule with
  | descend | forLoop | call | exceptHandler => exact mem_map_of_mem hm.mem_children
  | tryBlock => exact mem_handed_tryBlock hn hm.mem_children
  | functionDef | lambda => simp [isFunction, hrule] at hfunction
  | classDef => exact absurd rfl hclass
  | ignore | globalNames | name | importNames | importFrom => simp at hnames
  | listComp | generatorExp =>
    rw [eq_of_beq hsuits] at hf
    rcases mem_pair.mp hf with rfl | rfl
    · exact mem_append_right _ (hvalue (.inl rfl))
    · exact mem_append_left _ (hitems rfl)
  | assign =>
    rw [eq_of_beq hsuits] at hf
    rcases mem_pair.mp hf with rfl | rfl
    · exact mem_append_right _ (hitems rfl)
    · exact mem_append_left _ (hvalue (.inl rfl))
  | augAssign =>
    rw [eq_of_beq hsuits] at hf
    simp only [Rule.fields, mem_cons, not_mem_nil, or_false] at hf
    rcases hf with rfl | rfl | rfl
    · exact mem_append_right _ (hvalue (.inl rfl))
    · cases hcontent
      cases hword
    · exact mem_append_left _ (hvalue (.inl rfl))
  | dictComp =>
    rw [eq_of_beq hsuits] at hf
    simp only [Rule.fields, mem_cons, not_mem_nil, or_false] at hf
    rw [Rule.handed, mem_append, mem_append]
    rcases hf with rfl | rfl | rfl
    · exact .inl (.inr (hvalue (.inl rfl)))
    · exact .inr (hvalue (.inl rfl))
    · exact .inl (.inl (hitems rfl))

omit hword in
/-- What a class holds is visited, but in later dialects its starred arguments are overlooked. -/
theorem mem_parts_of_classDef (hclass : rule = .classDef) :
    .node m ∈ n.visited d ++ n.overlooked d := by
  subst hclass
  have hitems := mem_itemsIn_of_holds hp hf hm
  have hvalue := mem_valueIn_of_holds hp hf hm
  rw [n.visited_eq_handed d hrule (by simp [isFunction, hrule]), overlooked, hrule, Rule.handed,
    hp.isTwo_eq]
  rw [eq_of_beq (hp.suits hrule)] at hf
  simp only [Rule.fields, mem_cons, not_mem_nil, or_false] at hf
  simp only [mem_append]
  rcases hf with rfl | rfl | rfl | rfl | rfl | rfl | rfl
  · cases hcontent
  · exact .inl (.inl (.inl (.inr (hitems rfl))))
  · exact .inl (.inl (.inr (hitems rfl)))
  · exact .inr (.inl (hvalue (.inr rfl)))
  · exact .inr (.inr (hvalue (.inr rfl)))
  · exact .inl (.inr (hitems rfl))
  · exact .inl (.inl (.inl (.inl (hitems rfl))))

omit hword in
/-- A phrase in a function is in its body, in a decorator, or in something that stands around the
function, which is visited or passed over. -/
theorem exists_part_of_function (hwhole : n.IsWhole d) (hfunction : n.isFunction = true)
    (hcategory : d.categoryOf m.kind = some category) (hxm : x ∈ m.nodes) (hx : x.isPhrase d = true) :
    ∃ k, .node k ∈ n.visited d ++ n.overlooked d ∧ x ∈ k.nodes := by
  have hvalue := mem_valueIn_of_holds hp hf hm
  have haround (hname : f = .one "args" (.node .parameters)) : ∃ k, x ∈ k.nodes ∧
      (.node k ∈ n.outside d ∨ .node k ∈ ((Value.node n).valueIn "args").flatMap fun args =>
        n.passedOver d args "vararg" ++ n.passedOver d args "kwarg") := by
    subst hname
    cases hcontent
    have hchild := hm.mem_children
    obtain ⟨v, hget, -⟩ := hm
    have hargs := hvalue (.inl rfl)
    rw [Value.valueIn_of_get (v := .node n) hget, mem_singleton] at hargs
    subst hargs
    obtain ⟨k, hk, hxk⟩ := exists_around (hwhole.child hchild) hcategory hxm hx
    exact ⟨k, hxk, mem_outside_or_passedOver hget hk⟩
  have hfunction : rule = .functionDef ∨ rule = .lambda := by simpa [isFunction, hrule] using hfunction
  have hitems := mem_itemsIn_of_holds hp hf hm
  have hsuits := hp.suits hrule
  rcases hfunction with rfl | rfl
  · rw [n.visited_functionDef d hrule, overlooked, hrule]
    rw [eq_of_beq hsuits] at hf
    simp only [Rule.fields, mem_cons, not_mem_nil, or_false] at hf
    simp only [mem_append]
    rcases hf with rfl | hname | rfl | rfl | rfl
    · cases hcontent
    · obtain ⟨k, hxk, hk | hk⟩ := haround hname
      · exact ⟨k, .inl (.inl (.inr hk)), hxk⟩
      · exact ⟨k, .inr hk, hxk⟩
    · exact ⟨m, .inl (.inr (mem_deferred_iff.mpr hm)), hxm⟩
    · exact ⟨m, .inl (.inl (.inl (hitems rfl))), hxm⟩
    · obtain ⟨args, hargs, -⟩ := exists_get hwhole.formed
        (hasField_of_rule (f := .one "args" (.node .parameters)) hrule (by decide))
      have hvalueIn : (Value.node n).valueIn "args" = [args] :=
        Value.valueIn_of_get (v := .node n) hargs
      have houtside : .node m ∈ n.outside d := by
        rw [outside, hvalueIn, flatMap_singleton]
        refine mem_filter.mpr ⟨?_, rfl⟩
        exact mem_append_left _ (mem_append_right _ (hvalue (.inr rfl)))
      exact ⟨m, .inl (.inl (.inr houtside)), hxm⟩
  · rw [n.visited_lambda d hrule, overlooked, hrule]
    rw [eq_of_beq hsuits] at hf
    rcases mem_pair.mp hf with hname | rfl
    · obtain ⟨k, hxk, hk | hk⟩ := haround hname
      · exact ⟨k, mem_append_left _ (mem_append_left _ hk), hxk⟩
      · exact ⟨k, mem_append_right _ hk, hxk⟩
    · exact ⟨m, mem_append_left _ (mem_append_right _ (mem_deferred_iff.mpr hm)), hxm⟩

end Parts

/-- A phrase below a node is in something that is visited with the node, now or later, or
overlooked. -/
theorem exists_part_of_isPhrase (hn : n.Distinct) (hwhole : n.IsWhole d)
    (hrule : Rule.of? n.kind = some rule) (hbelow : x ∈ n.below) (hx : x.isPhrase d = true) :
    ∃ m, .node m ∈ n.visited d ++ n.overlooked d ∧ x ∈ m.nodes := by
  obtain ⟨p, hp, f, hf, category, hcontent, hword, m, hm, hcategory, hxm⟩ :=
    exists_field_of_isPhrase hwhole hbelow hx
  cases hfunction : n.isFunction with
  | true => exact exists_part_of_function hp hrule hf hm hcontent hwhole hfunction hcategory hxm hx
  | false =>
    by_cases hclass : rule = .classDef
    · exact ⟨m, mem_parts_of_classDef hp hrule hf hm hcontent hclass, hxm⟩
    · rw [n.visited_eq_handed d hrule hfunction]
      exact ⟨m, mem_append_left _
        (mem_handed_of_holds hp hrule hf hm hcontent hword hn hfunction hclass), hxm⟩

end NodeOf

end ScopeLint
