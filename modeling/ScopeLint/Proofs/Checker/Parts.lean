import Mathlib.Data.List.Flatten
import Mathlib.Data.List.Nodup
import ScopeLint.Proofs.Checker.Handed

/-! # The parts of a node that are visited

The values that a rule hands on, and the body that it puts off, are in different places below the
node: no node below it is in two of them. -/
namespace ScopeLint

open List

variable {m : Node} {v : Value}

theorem Value.nodes_list (items : List Value) :
    (Value.list items).nodes = items.flatMap Value.nodes := by
  induction items with
  | nil => rfl
  | cons v rest ih =>
    have hcons : (Value.list (v :: rest)).nodes = v.nodes ++ (Value.list rest).nodes := rfl
    rw [hcons, ih, flatMap_cons]

/-- What passes from the fields of a node to the node and from the items of a list to the list holds
of every value. -/
@[elab_as_elim]
theorem Value.tree_induction {motive : Value → Prop} (v : Value)
    (node : ∀ n : Node, (∀ f ∈ n.fields, motive f.2) → motive (.node n))
    (list : ∀ items, (∀ w ∈ items, motive w) → motive (.list items))
    (leaf : ∀ v, v.nodes = [] → motive v) : motive v :=
  @Value.rec motive (fun n => ∀ f ∈ n.fields, motive f.2) (fun items => ∀ w ∈ items, motive w)
    (fun fields => ∀ f ∈ fields, motive f.2) (fun f => motive f.2) node list
    (fun _ => leaf _ rfl) (fun _ => leaf _ rfl) (fun _ => leaf _ rfl) (fun _ => leaf _ rfl)
    (leaf _ rfl) (fun _ => leaf _ rfl) (fun _ _ _ _ h => h)
    (by simp) (fun _ _ hv hrest => forall_mem_cons.mpr ⟨hv, hrest⟩)
    (by simp) (fun _ _ hf hrest => forall_mem_cons.mpr ⟨hf, hrest⟩) (fun _ _ h => h) v

namespace NodeOf

/-- All nodes below `n`, each before what is below it. -/
def below (n : Node) : List Node := n.fields.flatMap (·.2.nodes)

theorem nodes_eq (n : Node) : n.nodes = n :: n.below := by
  obtain ⟨id, kind, position, fields⟩ := n
  have hfields : Value.nodesFields fields = fields.flatMap (·.2.nodes) := by
    induction fields with
    | nil => rfl
    | cons f rest ih =>
      obtain ⟨name, v⟩ := f
      rw [flatMap_cons, ← ih]
      rfl
  exact congrArg _ hfields

theorem self_mem_nodes (n : Node) : n ∈ n.nodes := by
  rw [nodes_eq]
  exact mem_cons_self

end NodeOf

theorem Value.nodes_node (n : Node) : (Value.node n).nodes = n :: n.below := n.nodes_eq

theorem Value.sublist_of_mem_nodes {a : Node} (v : Value) (h : a ∈ v.nodes) :
    a.nodes <+ v.nodes := by
  induction v using Value.tree_induction with
  | node n ih =>
    rw [nodes_node] at h ⊢
    rcases mem_cons.mp h with rfl | h
    · rw [a.nodes_eq]
    · obtain ⟨f, hf, h⟩ := mem_flatMap.mp h
      exact ((ih f hf h).trans (sublist_flatten_of_mem (mem_map_of_mem (f := (·.2.nodes)) hf))).cons _
  | list items ih =>
    rw [nodes_list] at h ⊢
    obtain ⟨w, hw, h⟩ := mem_flatMap.mp h
    exact (ih w hw h).trans (sublist_flatten_of_mem (mem_map_of_mem hw))
  | leaf v hv =>
    rw [hv] at h
    cases h

namespace NodeOf

theorem sublist_of_mem_nodes {a : Node} (n : Node) (h : a ∈ n.nodes) : a.nodes <+ n.nodes :=
  Value.sublist_of_mem_nodes (.node n) h

theorem below_subperm_nodes (n : Node) : n.below <+~ (Value.node n).nodes := by
  rw [Value.nodes_node]
  exact Subperm.cons_self

/-- What is visited below `n`, now or later. -/
def parts (d : Dialect) (n : Node) : List Value :=
  n.handed d ++ if n.isFunction then n.deferred else []

end NodeOf

namespace Value

/-- The nodes in what a loop over the value runs through. -/
def itemNodes (v : Value) : List Node := ((v.items.toOption).getD []).flatMap Value.nodes

theorem itemNodes_sublist (v : Value) : v.itemNodes <+ v.nodes := by
  cases v with
  | list items =>
    rw [nodes_list]
    exact List.Sublist.refl _
  | text s =>
    have hnil : (Value.text s).itemNodes = [] := by
      simp [itemNodes, items, Except.toOption, Value.nodes]
    rw [hnil]
    exact nil_sublist _
  | _ => exact nil_sublist _

theorem flatMap_nodes_itemsIn (v : Value) (name : String) :
    (v.itemsIn name).flatMap nodes = (v.valueIn name).flatMap itemNodes := by
  rw [itemsIn, flatMap_assoc]
  rfl

/-- The value as a child, or the children among its items. -/
def children (v : Value) : List Node :=
  match v with
  | .node m => [m]
  | .list items => items.filterMap Value.node?
  | _ => []

theorem mem_children_list {items : List Value} :
    m ∈ (Value.list items).children ↔ .node m ∈ items := by
  rw [children, mem_filterMap]
  constructor
  · rintro ⟨v, hv, hnode⟩
    cases v with
    | node =>
      cases hnode
      exact hv
    | _ => cases hnode
  · exact fun h => ⟨_, h, rfl⟩

theorem mem_children_of_items {items : List Value} (h : v.items = .ok items) (hm : .node m ∈ items) :
    m ∈ v.children := by
  cases v with
  | list values =>
    cases h
    exact mem_children_list.mpr hm
  | text s =>
    cases h
    obtain ⟨c, -, hc⟩ := mem_map.mp hm
    cases hc
  | _ => cases h

theorem flatMap_nodes_filterMap_node? (items : List Value) :
    (items.filterMap Value.node?).flatMap NodeOf.nodes <+ items.flatMap Value.nodes := by
  induction items with
  | nil => exact List.Sublist.refl _
  | cons v rest ih =>
    cases v with
    | node m =>
      simp only [filterMap_cons, Value.node?, flatMap_cons]
      exact (List.Sublist.refl _).append ih
    | _ =>
      simp only [filterMap_cons, Value.node?, flatMap_cons]
      exact ih.trans (sublist_append_right _ _)

theorem flatMap_children_sublist (v : Value) : v.children.flatMap NodeOf.nodes <+ v.nodes := by
  cases v with
  | node m =>
    have hself : (Value.node m).children.flatMap NodeOf.nodes = m.nodes := flatMap_singleton ..
    rw [hself]
    exact List.Sublist.refl _
  | list items =>
    rw [nodes_list]
    exact flatMap_nodes_filterMap_node? items
  | _ => exact nil_sublist _

end Value

/-- Some of the nodes in the value of a field. -/
structure Pick where
  name : String
  nodes : Value → List Node
  subperm : ∀ v, nodes v <+~ v.nodes

namespace Pick

/-- The nodes that are picked from a value with the field, if it is there. -/
def taken (pick : Pick) (v : Value) : List Node := (v.valueIn pick.name).flatMap pick.nodes

def value (name : String) : Pick := ⟨name, Value.nodes, fun _ => .refl _⟩

def items (name : String) : Pick := ⟨name, Value.itemNodes, fun v => v.itemNodes_sublist.subperm⟩

/-- A return annotation that is not written is null and holds no nodes. -/
theorem taken_node (pick : Pick) (n : Node) :
    pick.taken (.node n) = (n.fields.lookup pick.name).toList.flatMap pick.nodes := by
  have hnull : pick.nodes .null = [] := subperm_nil.mp (pick.subperm .null)
  simp only [Pick.taken, Value.valueIn, Value.get, NodeOf.get, NodeOf.field?]
  cases n.fields.lookup pick.name with
  | some v => rfl
  | none =>
    by_cases hr : n.kind = "FunctionDef" ∧ pick.name = "returns"
    · simp [hr, hnull, Except.toOption]
    · simp [hr, Except.toOption]

theorem flatMap_lookup_subperm (fields : List (String × Value)) (picks : List Pick)
    (hnames : (picks.map name).Nodup) :
    (picks.flatMap fun pick => (fields.lookup pick.name).toList.flatMap pick.nodes) <+~
      fields.flatMap (·.2.nodes) := by
  induction fields generalizing picks with
  | nil => simp
  | cons f rest ih =>
    obtain ⟨key, v⟩ := f
    rw [flatMap_cons]
    -- A pick of another name looks further on.
    have hskip (others : List Pick) (h : key ∉ others.map name) :
        (others.flatMap fun p => (((key, v) :: rest).lookup p.name).toList.flatMap p.nodes) =
          others.flatMap fun p => (rest.lookup p.name).toList.flatMap p.nodes := by
      refine flatMap_congr fun p hp => ?_
      have hne : p.name ≠ key := fun he => h (mem_map.mpr ⟨p, hp, he⟩)
      rw [lookup_cons, beq_eq_false_iff_ne.mpr hne]
    by_cases hkey : key ∈ picks.map name
    · obtain ⟨p, hp, rfl⟩ := mem_map.mp hkey
      obtain ⟨before, after, rfl⟩ := append_of_mem hp
      have hperm : before ++ p :: after ~ p :: (before ++ after) := perm_middle
      have hothers := (hperm.map name).nodup_iff.mp hnames
      rw [map_cons, nodup_cons] at hothers
      refine ((hperm.flatMap_right _).subperm_right).mpr ?_
      rw [flatMap_cons, hskip _ hothers.1]
      have hself : (((p.name, v) :: rest).lookup p.name).toList.flatMap p.nodes = p.nodes v := by
        simp
      rw [hself]
      exact (p.subperm v).append (ih (before ++ after) hothers.2)
    · rw [hskip picks hkey]
      exact (ih picks hnames).trans (sublist_append_right _ _).subperm

theorem flatMap_taken_of_node?_eq_none (h : v.node? = none) (picks : List Pick) :
    picks.flatMap (·.taken v) = [] := by
  refine flatMap_eq_nil_iff.mpr fun p _ => ?_
  cases v with
  | node m => cases h
  | _ => rfl

theorem flatMap_taken_subperm (n : Node) (picks : List Pick) (hnames : (picks.map name).Nodup) :
    picks.flatMap (·.taken (.node n)) <+~ n.below := by
  have heq := flatMap_congr fun p (_ : p ∈ picks) => p.taken_node n
  rw [heq]
  exact flatMap_lookup_subperm n.fields picks hnames

end Pick

namespace Value

def annotationNodes (v : Value) : List Node := (v.valueIn "annotation").flatMap nodes

theorem annotationNodes_subperm (v : Value) : v.annotationNodes <+~ v.nodes := by
  cases v with
  | node m =>
    have hpick := Pick.flatMap_taken_subperm m [.value "annotation"] (by simp)
    rw [flatMap_singleton] at hpick
    exact hpick.trans m.below_subperm_nodes
  | _ => exact nil_subperm

def itemAnnotationNodes (v : Value) : List Node :=
  ((v.items.toOption).getD []).flatMap annotationNodes

theorem itemAnnotationNodes_subperm (v : Value) : v.itemAnnotationNodes <+~ v.nodes := by
  refine Subperm.trans ?_ v.itemNodes_sublist.subperm
  unfold itemAnnotationNodes itemNodes
  induction (v.items.toOption).getD [] with
  | nil => exact .refl _
  | cons item rest ih => exact item.annotationNodes_subperm.append ih

end Value

namespace Pick

def annotated (name : String) : Pick :=
  ⟨name, Value.annotationNodes, Value.annotationNodes_subperm⟩

def itemAnnotations (name : String) : Pick :=
  ⟨name, Value.itemAnnotationNodes, Value.itemAnnotationNodes_subperm⟩

def parameters (d : Dialect) (starred : Bool) : List Pick :=
  (if d.isTwo then [] else [itemAnnotations "args", itemAnnotations "kwonlyargs"]) ++
  (if !starred then []
    else if d = .threeFour then [annotated "vararg", annotated "kwarg"]
    else [value "varargannotation", value "kwargannotation"]) ++
  items "defaults" :: if d.isTwo then [] else [items "kw_defaults"]

theorem flatMap_parameters (d : Dialect) (starred : Bool) (args : Value) :
    (NodeOf.plainAnnotations d args ++ (if starred then NodeOf.starredAnnotations d args else []) ++
        NodeOf.parameterDefaults d args).flatMap Value.nodes =
      (parameters d starred).flatMap (·.taken args) := by
  have hannotations (name : String) :
      ((args.itemsIn name).flatMap (·.valueIn "annotation")).flatMap Value.nodes =
        (itemAnnotations name).taken args := by
    simp only [Value.itemsIn, flatMap_assoc]
    rfl
  have hitems (name : String) : (args.itemsIn name).flatMap Value.nodes = (items name).taken args :=
    args.flatMap_nodes_itemsIn name
  have hstarred : (NodeOf.starredAnnotations d args).flatMap Value.nodes =
      (if d = .threeFour then [annotated "vararg", annotated "kwarg"]
        else [value "varargannotation", value "kwargannotation"]).flatMap (·.taken args) := by
    have hstar (name : String) :
        ((args.valueIn name).flatMap (·.valueIn "annotation")).flatMap Value.nodes =
          (annotated name).taken args := by
      rw [flatMap_assoc]
      rfl
    by_cases hd : d = .threeFour
    · simp [NodeOf.starredAnnotations, hd, hstar]
    · simp [NodeOf.starredAnnotations, hd, value, taken]
  unfold NodeOf.plainAnnotations NodeOf.parameterDefaults parameters
  cases d.isTwo <;> cases starred <;> simp [hannotations, hitems, hstarred]

theorem nodup_parameters (d : Dialect) (starred : Bool) :
    ((parameters d starred).map name).Nodup := by
  cases d <;> cases starred <;> decide

def around (d : Dialect) (starred : Bool) : Pick where
  name := "args"
  nodes args := (NodeOf.plainAnnotations d args ++
    (if starred then NodeOf.starredAnnotations d args else []) ++
    NodeOf.parameterDefaults d args).flatMap Value.nodes
  subperm args := by
    rw [flatMap_parameters]
    cases args with
    | node m =>
      exact (flatMap_taken_subperm m _ (nodup_parameters d _)).trans m.below_subperm_nodes
    | _ =>
      rw [flatMap_taken_of_node?_eq_none rfl]
      exact nil_subperm

end Pick

namespace NodeOf

variable (d : Dialect) {n : Node} {name : String}

theorem field?_of_get (h : n.get name = .ok v) : n.field? name = some v := by
  unfold get at h
  split at h
  · rename_i hfield
    rw [hfield, Except.ok.inj h]
  · cases h

/-- What is read off a node stands in it, apart from the annotation that functions may lack. -/
theorem exists_fields_of_field? (h : n.field? name = some v) :
    (∃ before after, n.fields = before ++ (name, v) :: after) ∨ name = "returns" ∧ v = .null := by
  unfold field? at h
  split at h
  · rename_i hlookup
    obtain ⟨before, after, hfields, -⟩ := lookup_eq_some_iff.mp hlookup
    exact .inl ⟨before, after, Option.some.inj h ▸ hfields⟩
  · split at h
    · rename_i hreturns
      exact .inr ⟨hreturns.2, (Option.some.inj h).symm⟩
    · cases h

variable (n)

theorem children_eq : n.children = n.fields.flatMap (·.2.children) := rfl

theorem flatMap_filter_children_sublist (keep : Node → Bool) (fields : List (String × Value)) :
    ((fields.flatMap (·.2.children)).filter keep).flatMap nodes <+
      fields.flatMap (·.2.nodes) := by
  refine (filter_sublist.flatMap _).trans ?_
  rw [flatMap_assoc]
  exact List.Sublist.flatMap_right _ fun f _ => f.2.flatMap_children_sublist

theorem flatMap_aroundFunction_sublist : (n.aroundFunction d).flatMap Value.nodes <+
      [Pick.around d (n.has "returns"), .value "returns"].flatMap (·.taken (.node n)) := by
  refine (filter_sublist.flatMap _).trans ?_
  rw [flatMap_append, flatMap_assoc]
  simp only [flatMap_cons, flatMap_nil, append_nil, aroundParameters_eq]
  exact List.Sublist.refl _

theorem flatMap_deferred : n.deferred.flatMap Value.nodes = (Pick.value "body").taken (.node n) := by
  unfold deferred Pick.taken
  cases hb : n.get "body" with
  | error e =>
    have hnone : (Value.node n).valueIn "body" = [] := by
      simp [Value.valueIn, Value.get, hb, Except.toOption]
    simp [Pick.value, hnone]
  | ok v =>
    have hsome : (Value.node n).valueIn "body" = [v] := Value.valueIn_of_get hb
    cases v with
    | list items => simp [Pick.value, hsome, Value.nodes_list]
    | _ => simp [Pick.value, hsome]

theorem exists_fields_of_get (h : n.get name = .ok v) (hnull : v.isNull = false) :
    ∃ before after, n.fields = before ++ (name, v) :: after := by
  refine (exists_fields_of_field? (field?_of_get h)).resolve_right ?_
  rintro ⟨-, rfl⟩
  cases hnull

theorem filter_children_body {items : List Value} {keep : Node → Bool}
    (hkeep : ∀ m, .node m ∈ items → keep m = false) :
    (Value.list items).children.filter keep = [] := by
  refine filter_eq_nil_iff.mpr fun m hm => ?_
  simp [hkeep m (Value.mem_children_list.mp hm)]

/-- In a `try`, the items of the body come first, and then the other children. -/
theorem flatMap_tryBlock_subperm : (Rule.handed d n .tryBlock).flatMap Value.nodes <+~ n.below := by
  have hothers (keep : Node → Bool) :
      ((n.children.filter keep).map Value.node).flatMap Value.nodes <+~ n.below := by
    rw [flatMap_map]
    exact (flatMap_filter_children_sublist keep n.fields).subperm
  simp only [Rule.handed, flatMap_append, Value.flatMap_nodes_itemsIn]
  by_cases hlist : ∃ items, n.get "body" = .ok (.list items)
  · obtain ⟨items, hbody⟩ := hlist
    obtain ⟨before, after, hfields⟩ := n.exists_fields_of_get hbody rfl
    have hvalue : (Value.node n).valueIn "body" = [.list items] := Value.valueIn_of_get hbody
    have hheld (m : Node) (hm : .node m ∈ items) :
        (!((do (← n.get "body").holds m).toOption).getD false) = false := by
      rw [hbody, ok_bind]
      simp only [Value.holds, Except.toOption, Option.getD_some, Bool.not_eq_false',
        any_eq_true]
      exact ⟨.node m, hm, by simp [Value.node?]⟩
    rw [hvalue, flatMap_singleton, flatMap_map, children_eq, below, hfields]
    simp only [flatMap_append, flatMap_cons, filter_append,
      filter_children_body hheld, nil_append]
    refine (perm_append_comm_assoc ..).subperm_right.mp ?_
    exact ((flatMap_filter_children_sublist _ before).append
      ((Value.list items).itemNodes_sublist.append
        (flatMap_filter_children_sublist _ after))).subperm
  · have hnone : ((Value.node n).valueIn "body").flatMap Value.itemNodes = [] := by
      cases hbody : n.get "body" with
      | error e => simp [Value.valueIn, Value.get, hbody, Except.toOption]
      | ok w =>
        have hvalue : (Value.node n).valueIn "body" = [w] := Value.valueIn_of_get hbody
        rw [hvalue, flatMap_singleton]
        cases w with
        | list items => exact absurd ⟨items, hbody⟩ hlist
        | text s => simp [Value.itemNodes, Value.items, Except.toOption, Value.nodes]
        | _ => rfl
    rw [hnone, nil_append]
    exact hothers _

theorem flatMap_children_subperm : (n.children.map Value.node).flatMap Value.nodes <+~ n.below := by
  rw [flatMap_map, ← filter_true n.children]
  exact (flatMap_filter_children_sublist _ n.fields).subperm

/-- No node below `n` is in two of the parts that are visited. -/
theorem flatMap_parts_subperm : (n.parts d).flatMap Value.nodes <+~ n.below := by
  have hpicks (picks : List Pick) (hnames : (picks.map Pick.name).Nodup) {vs : List Value}
      (h : vs.flatMap Value.nodes <+ picks.flatMap (·.taken (.node n))) :
      vs.flatMap Value.nodes <+~ n.below :=
    h.subperm.trans (Pick.flatMap_taken_subperm n picks hnames)
  have hitems (name : String) : ((Value.node n).itemsIn name).flatMap Value.nodes =
      (Pick.items name).taken (.node n) := Value.flatMap_nodes_itemsIn _ name
  have hvalue (name : String) : ((Value.node n).valueIn name).flatMap Value.nodes =
      (Pick.value name).taken (.node n) := rfl
  have haround := n.flatMap_aroundFunction_sublist d
  rw [flatMap_cons, flatMap_singleton] at haround
  unfold parts handed isFunction
  cases hrule : Rule.of? n.kind with
  | none => simp
  | some rule =>
    cases rule with
    | functionDef =>
      refine hpicks [.items "decorator_list", .around d (n.has "returns"), .value "returns",
        .value "body"] (show ["decorator_list", "args", "returns", "body"].Nodup by decide) ?_
      simpa [Rule.handed, hitems, n.flatMap_deferred] using
        haround.append_right ((Pick.value "body").taken (.node n))
    | lambda =>
      refine hpicks [.around d (n.has "returns"), .value "returns", .value "body"]
        (show ["args", "returns", "body"].Nodup by decide) ?_
      simpa [Rule.handed, n.flatMap_deferred] using
        haround.append_right ((Pick.value "body").taken (.node n))
    | tryBlock => simpa using n.flatMap_tryBlock_subperm d
    | listComp | generatorExp =>
      refine hpicks [.items "generators", .value "elt"] (by decide) ?_
      simp [Rule.handed, hitems, hvalue]
    | dictComp =>
      refine hpicks [.items "generators", .value "key", .value "value"] (by decide) ?_
      simp [Rule.handed, hitems, hvalue]
    | classDef =>
      cases htwo : d.isTwo
      · refine hpicks [.items "decorator_list", .items "bases", .items "keywords", .items "body"]
          (by decide) ?_
        simp [Rule.handed, hitems, htwo]
      · refine hpicks [.items "decorator_list", .items "bases", .items "body"] (by decide) ?_
        simp [Rule.handed, hitems, htwo]
    | assign =>
      refine hpicks [.value "value", .items "targets"] (by decide) ?_
      simp [Rule.handed, hitems, hvalue]
    | augAssign =>
      refine hpicks [.value "value", .value "target"] (by decide) ?_
      simp [Rule.handed, hvalue]
    | descend | forLoop | call | exceptHandler => simpa [Rule.handed] using n.flatMap_children_subperm
    | ignore | globalNames | name | importNames | importFrom => simp [Rule.handed]

variable {d n}

theorem mem_nodes_of_mem_parts {a : Node} (hm : .node m ∈ n.parts d) (ha : a ∈ m.nodes) :
    a ∈ n.nodes := by
  rw [nodes_eq]
  exact mem_cons_of_mem _
    ((n.flatMap_parts_subperm d).subset (mem_flatMap.mpr ⟨.node m, hm, ha⟩))

theorem mem_children_of_get (h : n.get name = .ok v) (hm : m ∈ v.children) : m ∈ n.children := by
  have hnull : v.isNull = false := by
    cases v with
    | null => cases hm
    | _ => rfl
  obtain ⟨before, after, hfields⟩ := n.exists_fields_of_get h hnull
  rw [children_eq, hfields, mem_flatMap]
  exact ⟨(name, v), by simp, hm⟩

theorem mem_nodes_of_mem_children (hm : m ∈ n.children) : m ∈ n.nodes := by
  rw [nodes_eq]
  exact mem_cons_of_mem _ (n.flatMap_children_subperm.subset
    (mem_flatMap.mpr ⟨.node m, mem_map_of_mem hm, m.self_mem_nodes⟩))

theorem mem_children_of_deferred (h : .node m ∈ n.deferred) : m ∈ n.children := by
  unfold deferred at h
  split at h
  · rename_i items hget
    exact mem_children_of_get hget (Value.mem_children_list.mpr h)
  · rename_i v _ hget
    obtain rfl := mem_singleton.mp h
    exact mem_children_of_get hget mem_cons_self
  · cases h

end NodeOf

end ScopeLint
