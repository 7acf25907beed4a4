import Mathlib.Tactic.Abel
import ScopeLint.Proofs.Checker.Trail

/-! # What is visited below a node and what is not

A rule that lists the fields of its node by hand may leave one out. What is visited below a node, now
or later, and what is left out are separate parts of the tree. -/
namespace ScopeLint

open List

open scoped List

namespace NodeOf

/-- Annotations of starred parameters that are passed over: all of them in an expression, and in a
definition those without a parameter. -/
def passedOver (d : Dialect) (n : Node) (args : Value) (name : String) : List Value :=
  if n.has "returns" && (args.valueIn name).any Value.truthy then []
  else annotationStarred d args name

def overlooked (d : Dialect) (n : Node) : List Value :=
  match Rule.of? n.kind with
  | some .classDef => (Value.node n).valueIn "starargs" ++ (Value.node n).valueIn "kwargs"
  | some .functionDef | some .lambda => ((Value.node n).valueIn "args").flatMap fun args =>
    n.passedOver d args "vararg" ++ n.passedOver d args "kwarg"
  | _ => []

def visited (d : Dialect) (n : Node) : List Value :=
  (n.taken d).map (·.2) ++ if n.isFunction then n.deferred else []

end NodeOf

namespace Value

theorem nodesOf_annotationStarred (d : Dialect) (n : Node) (args : Value) (name : String) :
    nodesOf (if n.has "returns" then NodeOf.annotationGiven d args name else []) +
      nodesOf (n.passedOver d args name) = nodesOf (NodeOf.annotationStarred d args name) := by
  unfold NodeOf.annotationGiven NodeOf.passedOver
  cases n.has "returns" <;> cases (args.valueIn name).any Value.truthy <;> simp

theorem nodesOf_filter_le (keep : Value → Bool) (vs : List Value) :
    nodesOf (vs.filter keep) ≤ nodesOf vs :=
  nodesOf_mono filter_sublist.subperm

end Value

namespace NodeOf

variable (d : Dialect) (n : Node)

/-- The annotations and defaults of a function, those that are passed over included. -/
def allAround (args : Value) : List Value :=
  plainAnnotations d args ++ starredAnnotations d args ++ parameterDefaults d args

theorem nodesOf_outside_le : Value.nodesOf (n.outside d) +
    Value.nodesOf (((Value.node n).valueIn "args").flatMap fun args =>
      n.passedOver d args "vararg" ++ n.passedOver d args "kwarg") ≤
    Value.nodesOf (((Value.node n).valueIn "args").flatMap (allAround d)) +
      Value.nodesOf ((Value.node n).valueIn "returns") := by
  cases hargs : (Value.node n).get "args" with
  | error e =>
    have hnone : (Value.node n).valueIn "args" = [] := by simp [Value.valueIn, hargs, Except.toOption]
    simp [outside, hnone, Multiset.zero_le]
  | ok args =>
    rw [outside, Value.valueIn_of_get hargs, flatMap_singleton, flatMap_singleton,
      flatMap_singleton]
    refine (add_le_add_left (Value.nodesOf_filter_le _ _) _).trans (le_of_eq ?_)
    have hvararg := Value.nodesOf_annotationStarred d n args "vararg"
    have hkwarg := Value.nodesOf_annotationStarred d n args "kwarg"
    have hstarred : Value.nodesOf (if n.has "returns" then
        annotationGiven d args "vararg" ++ annotationGiven d args "kwarg" else []) =
        Value.nodesOf (if n.has "returns" then annotationGiven d args "vararg" else []) +
          Value.nodesOf (if n.has "returns" then annotationGiven d args "kwarg" else []) := by
      cases n.has "returns" <;> simp
    simp only [Value.nodesOf_append, allAround, starredAnnotations_eq, ← hvararg, ← hkwarg, hstarred]
    abel

/-- Below a node other than a function, what is visited is what its rule hands on. -/
theorem visited_eq_handed {rule : Rule} (hrule : Rule.of? n.kind = some rule)
    (hfunction : n.isFunction = false) : n.visited d = rule.handed d n := by
  have htaken : (rule.taken d n).map (·.2) = rule.handed d n := by
    rw [isFunction, hrule] at hfunction
    cases rule with
    | functionDef | lambda => cases hfunction
    | _ => simp [Rule.taken, legs, legsIn, Rule.handed]
  simp [visited, taken, hrule, hfunction, htaken]

theorem visited_functionDef (hrule : Rule.of? n.kind = some .functionDef) :
    n.visited d = (Value.node n).itemsIn "decorator_list" ++ n.outside d ++ n.deferred := by
  simp [visited, taken, isFunction, hrule, Rule.taken, legs]

theorem visited_lambda (hrule : Rule.of? n.kind = some .lambda) :
    n.visited d = n.outside d ++ n.deferred := by
  simp [visited, taken, isFunction, hrule, Rule.taken, legs]

/-- No node is in two of the values that are visited or overlooked. -/
theorem nodesOf_visited_overlooked_le :
    Value.nodesOf (n.visited d) + Value.nodesOf (n.overlooked d) ≤ n.below := by
  have hitems (name : String) : Value.nodesOf ((Value.node n).itemsIn name) =
      (Pick.items name).taken (.node n) :=
    congrArg Multiset.ofList (Value.flatMap_nodes_itemsIn _ name)
  have hvalue (name : String) : Value.nodesOf ((Value.node n).valueIn name) =
      (Pick.value name).taken (.node n) := rfl
  have hdeferred : Value.nodesOf n.deferred = (Pick.value "body").taken (.node n) :=
    congrArg Multiset.ofList n.flatMap_deferred
  have haround : Value.nodesOf (((Value.node n).valueIn "args").flatMap (allAround d)) =
      (Pick.around d true).taken (.node n) :=
    congrArg Multiset.ofList flatMap_assoc
  have hpicks (picks : List Pick) (hnames : (picks.map Pick.name).Nodup) :
      ((picks.flatMap (·.taken (.node n)) : List Node) : Multiset Node) ≤ n.below :=
    Multiset.coe_le.mpr (Pick.flatMap_taken_subperm n picks hnames)
  -- where nothing is overlooked, the values that are visited are those that are handed on
  have hparts (hvisited : n.visited d = n.parts d) (hnone : n.overlooked d = []) :
      Value.nodesOf (n.visited d) + Value.nodesOf (n.overlooked d) ≤ n.below := by
    rw [hvisited, hnone, Value.nodesOf_nil, add_zero]
    exact Multiset.coe_le.mpr (n.flatMap_parts_subperm d)
  cases hrule : Rule.of? n.kind with
  | none =>
    exact hparts (by simp [visited, parts, taken, handed, hrule]) (by simp [overlooked, hrule])
  | some rule =>
    cases rule with
    | functionDef =>
      rw [n.visited_functionDef d hrule, overlooked, hrule, Value.nodesOf_append,
        Value.nodesOf_append]
      dsimp only
      calc _ = Value.nodesOf ((Value.node n).itemsIn "decorator_list") +
              (Value.nodesOf (n.outside d) + Value.nodesOf
                (((Value.node n).valueIn "args").flatMap fun args =>
                  n.passedOver d args "vararg" ++ n.passedOver d args "kwarg")) +
              Value.nodesOf n.deferred := by abel
        _ ≤ _ := add_le_add_left (add_le_add_right (n.nodesOf_outside_le d) _) _
        _ ≤ n.below := by
            refine le_trans (le_of_eq ?_) (hpicks [.items "decorator_list", .around d true,
              .value "returns", .value "body"]
              (show ["decorator_list", "args", "returns", "body"].Nodup by decide))
            simp [hitems, hvalue, haround, hdeferred, ← Multiset.coe_add, add_assoc]
    | lambda =>
      rw [n.visited_lambda d hrule, overlooked, hrule, Value.nodesOf_append]
      dsimp only
      calc _ = Value.nodesOf (n.outside d) + Value.nodesOf
                (((Value.node n).valueIn "args").flatMap fun args =>
                  n.passedOver d args "vararg" ++ n.passedOver d args "kwarg") +
              Value.nodesOf n.deferred := by abel
        _ ≤ _ := add_le_add_left (n.nodesOf_outside_le d) _
        _ ≤ n.below := by
            refine le_trans (le_of_eq ?_) (hpicks [.around d true, .value "returns", .value "body"]
              (show ["args", "returns", "body"].Nodup by decide))
            simp [hvalue, haround, hdeferred, ← Multiset.coe_add, add_assoc]
    | classDef =>
      rw [n.visited_eq_handed d hrule (by simp [isFunction, hrule]), overlooked, hrule, Rule.handed]
      have hall := hpicks [.items "decorator_list", .items "bases", .items "keywords",
        .items "body", .value "starargs", .value "kwargs"] (by decide)
      refine le_trans ?_ hall
      cases d.isTwo with
      | false => simp [hitems, hvalue, ← Multiset.coe_add, add_assoc]
      | true =>
        simp [hitems, hvalue, ← Multiset.coe_add, add_assoc, Multiset.zero_le]
    | _ =>
      have hfunction : n.isFunction = false := by simp [isFunction, hrule]
      refine hparts ?_ (by simp [overlooked, hrule])
      rw [n.visited_eq_handed d hrule hfunction]
      simp [parts, handed, hrule, hfunction]

end NodeOf

namespace NodeOf

variable {d : Dialect} {n m k x : Node} {v : Value}

/-- The values that are visited or overlooked below a node. -/
def regions (d : Dialect) (n : Node) : List Value := n.visited d ++ n.overlooked d

theorem flatMap_regions_subperm (d : Dialect) (n : Node) :
    (n.regions d).flatMap Value.nodes <+~ n.below := by
  have h := n.nodesOf_visited_overlooked_le d
  rw [← Value.nodesOf_append] at h
  exact Multiset.coe_le.mp h

theorem nodes_subset_of_regions (hm : .node m ∈ n.regions d) : m.nodes ⊆ n.below := fun _ hx =>
  (n.flatMap_regions_subperm d).subset (mem_flatMap.mpr ⟨_, hm, hx⟩)

theorem length_lt_of_regions (hv : v ∈ n.regions d) : v.nodes.length < n.nodes.length := by
  have hsub : v.nodes <+~ n.below := by
    refine List.Subperm.trans ?_ (n.flatMap_regions_subperm d)
    obtain ⟨before, after, hsplit⟩ := append_of_mem hv
    rw [hsplit, flatMap_append, flatMap_cons]
    exact ((sublist_append_left _ _).trans (sublist_append_right _ _)).subperm
  rw [n.nodes_eq, length_cons]
  exact Nat.lt_succ_of_le hsub.length_le

/-- No node is both visited and overlooked. -/
theorem Distinct.not_mem_overlooked (hn : n.Distinct) (hm : .node m ∈ n.visited d)
    (hx : x ∈ m.nodes) (hv : v ∈ n.overlooked d) : x ∉ v.nodes := by
  intro hxv
  have hnodup := hn.nodup_of_subperm (n.flatMap_regions_subperm d)
  rw [regions, flatMap_append, map_append, nodup_append] at hnodup
  have hleft : x.id ∈ ((n.visited d).flatMap Value.nodes).map (·.id) :=
    mem_map_of_mem (mem_flatMap.mpr ⟨_, hm, hx⟩)
  have hright : x.id ∈ ((n.overlooked d).flatMap Value.nodes).map (·.id) :=
    mem_map_of_mem (mem_flatMap.mpr ⟨_, hv, hxv⟩)
  exact hnodup.2.2 _ hleft _ hright rfl

theorem Distinct.eq_of_subperm (hn : n.Distinct) {vs : List Value}
    (hvs : vs.flatMap Value.nodes <+~ n.below) (hm : .node m ∈ vs) (hk : .node k ∈ vs)
    (hxm : x ∈ m.nodes) (hxk : x ∈ k.nodes) : m = k := by
  have hnodup := List.Nodup.of_map _ (hn.nodup_of_subperm hvs)
  have hpairwise := (nodup_flatMap.mp hnodup).2
  have hsymm : Std.Symm (Function.onFun List.Disjoint Value.nodes) := ⟨fun _ _ h => h.symm⟩
  by_contra hne
  have hdisjoint := hpairwise.forall hm hk (by simpa using hne)
  exact hdisjoint hxm hxk

end NodeOf

end ScopeLint
