import Mathlib.Data.List.Pairwise
import ScopeLint.Proofs.Checker.Parts
import ScopeLint.Proofs.Checker.Passes

/-! # Where the nodes of a tree are visited

From the root down, a node is visited below the one that hands it on, and the body of a function
from level one on again. In a tree without shared nodes every node is visited in one place, and that
is what the marks of a run say. -/
namespace ScopeLint

open List

open scoped List

/-- A node with the place where it is visited: the nodes above it, nearest first, its level, and the
number of bodies that were put off on the way to it. -/
structure Spot where
  node : Node
  ancestors : List Node
  level : Nat
  bodies : Nat

namespace Spot

def lineage (x : Spot) : List Node := x.node :: x.ancestors

def below (x : Spot) (m : Node) : Spot := ⟨m, x.lineage, x.level + 1, x.bodies⟩

def inBody (x : Spot) (m : Node) : Spot := ⟨m, x.lineage, 1, x.bodies + 1⟩

end Spot

namespace Setup

/-- The values that are visited below a node. The root is not visited itself; all of its children
are. -/
def handedAt (cfg : Setup) (n : Node) : List Value :=
  if n.id = cfg.root.id then n.children.map .node else n.handed cfg.dialect

def deferredAt (cfg : Setup) (n : Node) : List Value :=
  if n.id = cfg.root.id then [] else if n.isFunction then n.deferred else []

theorem flatMap_partsAt_subperm (cfg : Setup) (n : Node) :
    (cfg.handedAt n ++ cfg.deferredAt n).flatMap Value.nodes <+~ n.below := by
  unfold handedAt deferredAt
  split
  · rw [append_nil]
    exact n.flatMap_children_subperm
  · exact n.flatMap_parts_subperm cfg.dialect

def rootSpot (cfg : Setup) : Spot := ⟨cfg.root, [], 0, 0⟩

end Setup

namespace Spot

variable {cfg : Setup} {x y : Spot}

def steps (cfg : Setup) (x : Spot) : List Spot :=
  ((cfg.handedAt x.node).filterMap Value.node?).map x.below ++
    ((cfg.deferredAt x.node).filterMap Value.node?).map x.inBody

def Above (cfg : Setup) : Spot → Spot → Prop := Relation.ReflTransGen fun x y => y ∈ x.steps cfg

theorem mem_steps : y ∈ x.steps cfg ↔ (∃ m, .node m ∈ cfg.handedAt x.node ∧ y = x.below m) ∨
      ∃ m, .node m ∈ cfg.deferredAt x.node ∧ y = x.inBody m := by
  have hnode (vs : List Value) (m : Node) : m ∈ vs.filterMap Value.node? ↔ .node m ∈ vs := by
    rw [mem_filterMap]
    constructor
    · rintro ⟨v, hv, hm⟩
      cases v <;> cases hm
      exact hv
    · intro hm
      exact ⟨_, hm, rfl⟩
  simp only [steps, mem_append, mem_map, hnode]
  constructor
  · rintro (⟨m, hm, rfl⟩ | ⟨m, hm, rfl⟩)
    · exact .inl ⟨m, hm, rfl⟩
    · exact .inr ⟨m, hm, rfl⟩
  · rintro (⟨m, hm, rfl⟩ | ⟨m, hm, rfl⟩)
    · exact .inl ⟨m, hm, rfl⟩
    · exact .inr ⟨m, hm, rfl⟩

theorem ancestors_of_mem_steps (h : y ∈ x.steps cfg) : y.ancestors = x.lineage := by
  rcases mem_steps.mp h with ⟨m, -, rfl⟩ | ⟨m, -, rfl⟩ <;> rfl

/-- The nodes at different places reached from one are different. -/
theorem flatMap_steps_subperm (cfg : Setup) (x : Spot) :
    (x.steps cfg).flatMap (·.node.nodes) <+~ x.node.below := by
  refine List.Subperm.trans ?_ (cfg.flatMap_partsAt_subperm x.node)
  rw [steps, flatMap_append, flatMap_append, flatMap_map, flatMap_map]
  exact ((Value.flatMap_nodes_filterMap_node? _).append
    (Value.flatMap_nodes_filterMap_node? _)).subperm

end Spot

/-- No two nodes in the tree have the same number. -/
def NodeOf.Distinct (n : Node) : Prop := (n.nodes.map (·.id)).Nodup

instance (n : Node) : Decidable n.Distinct := inferInstanceAs (Decidable (n.nodes.map (·.id)).Nodup)

theorem NodeOf.Distinct.nodup_of_subperm {n : Node} (hn : n.Distinct) {nodes : List Node}
    (h : nodes <+~ n.below) : (nodes.map (·.id)).Nodup := by
  obtain ⟨kept, hperm, hsub⟩ := h
  rw [NodeOf.Distinct, NodeOf.nodes_eq, map_cons, nodup_cons] at hn
  exact (hperm.map _).nodup_iff.mp (hn.2.sublist (hsub.map _))

theorem NodeOf.Distinct.part {n m : Node} (hn : n.Distinct) (hm : m ∈ n.nodes) : m.Distinct :=
  hn.sublist ((NodeOf.sublist_of_mem_nodes n hm).map _)

theorem NodeOf.Distinct.eq_of_id {n a b : Node} (hn : n.Distinct) (ha : a ∈ n.nodes)
    (hb : b ∈ n.nodes) (hid : a.id = b.id) : a = b :=
  inj_on_of_nodup_map hn ha hb hid

namespace Spot

variable {cfg : Setup} {x y z : Spot} {a : Node}

theorem nodup_flatMap_steps (cfg : Setup) (hx : x.node.Distinct) :
    ((x.steps cfg).flatMap fun y => y.node.nodes.map (·.id)).Nodup := by
  rw [← map_flatMap]
  exact hx.nodup_of_subperm (flatMap_steps_subperm cfg x)

theorem mem_below_of_mem_steps (hy : y ∈ x.steps cfg) (ha : a ∈ y.node.nodes) : a ∈ x.node.below :=
  (flatMap_steps_subperm cfg x).subset (mem_flatMap.mpr ⟨y, hy, ha⟩)

theorem id_ne_of_mem_below {n : Node} (hn : n.Distinct) (ha : a ∈ n.below) : a.id ≠ n.id := by
  rw [NodeOf.Distinct, NodeOf.nodes_eq, map_cons, nodup_cons] at hn
  intro hid
  exact hn.1 (hid ▸ mem_map_of_mem ha)

theorem mem_nodes_of_above (h : Above cfg x y) (ha : a ∈ y.node.nodes) : a ∈ x.node.nodes := by
  induction h with
  | refl => exact ha
  | tail _ hstep ih =>
    refine ih ?_
    rw [NodeOf.nodes_eq]
    exact mem_cons_of_mem _ (mem_below_of_mem_steps hstep ha)

theorem Above.node_mem (h : Above cfg x y) : y.node ∈ x.node.nodes :=
  mem_nodes_of_above h y.node.self_mem_nodes

/-- On the way down the number of bodies grows, or else the level does. -/
theorem Above.order (h : Above cfg x y) :
    x.bodies < y.bodies ∨ (x.bodies = y.bodies ∧ (x = y ∨ x.level < y.level)) := by
  induction h with
  | refl => exact .inr ⟨rfl, .inl rfl⟩
  | @tail y z _ hstep ih =>
    rcases mem_steps.mp hstep with ⟨m, -, rfl⟩ | ⟨m, -, rfl⟩
    · rcases ih with hlt | ⟨heq, rfl | hlevel⟩
      · exact .inl hlt
      · exact .inr ⟨rfl, .inr (Nat.lt_succ_self _)⟩
      · exact .inr ⟨heq, .inr (Nat.lt_succ_of_lt hlevel)⟩
    · refine .inl (Nat.lt_succ_of_le ?_)
      rcases ih with hlt | ⟨heq, -⟩
      · exact Nat.le_of_lt hlt
      · exact Nat.le_of_eq heq

theorem level_pos_of_mem_steps (h : y ∈ x.steps cfg) : 0 < y.level := by
  rcases mem_steps.mp h with ⟨m, -, rfl⟩ | ⟨m, -, rfl⟩
  · exact Nat.succ_pos _
  · exact Nat.one_pos

/-- A place that is reached from the root. -/
def Placed (cfg : Setup) (x : Spot) : Prop := Above cfg cfg.rootSpot x

/-- The last place on the way to both. -/
structure Lowest (cfg : Setup) (x y z : Spot) : Prop where
  placed : Placed cfg x
  left : Above cfg x y
  right : Above cfg x z
  above : ∀ w, Placed cfg w → Above cfg w y → Above cfg w z → Above cfg w x

section

variable (hx : x.node.Distinct)

include hx

theorem eq_of_mem_steps (hy : y ∈ x.steps cfg) (hz : z ∈ x.steps cfg)
    {b : Node} (ha : a ∈ y.node.nodes) (hb : b ∈ z.node.nodes) (hid : a.id = b.id) : y = z := by
  by_contra hne
  have hpair := (nodup_flatMap.mp (nodup_flatMap_steps cfg hx)).2
  have hsymm : Std.Symm (Function.onFun List.Disjoint
      fun y : Spot => y.node.nodes.map (·.id)) := ⟨fun _ _ h _ ha hb => h hb ha⟩
  have hdisjoint := hpair.forall hy hz hne
  exact hdisjoint (mem_map.mpr ⟨a, ha, hid⟩) (mem_map.mpr ⟨b, hb, rfl⟩)

theorem distinct_of_mem_steps (hy : y ∈ x.steps cfg) : y.node.Distinct :=
  (nodup_flatMap.mp (nodup_flatMap_steps cfg hx)).1 y hy

/-- From one place at most one place is reached for each node. -/
theorem Above.unique (hy : Above cfg x y) (hz : Above cfg x z)
    (hid : y.node.id = z.node.id) : y = z := by
  induction hy using Relation.ReflTransGen.head_induction_on with
  | refl =>
    rcases hz.cases_head with rfl | ⟨c, hc, hcz⟩
    · rfl
    · have hmem := mem_below_of_mem_steps hc (Above.node_mem hcz)
      exact absurd hid.symm (id_ne_of_mem_below hx hmem)
  | @head x c hc hcy ih =>
    have hy := Above.node_mem hcy
    rcases hz.cases_head with rfl | ⟨c', hc', hcz⟩
    · exact absurd hid (id_ne_of_mem_below hx (mem_below_of_mem_steps hc hy))
    · have hz := Above.node_mem hcz
      obtain rfl := eq_of_mem_steps hx hc hc' hy hz hid
      exact ih (distinct_of_mem_steps hx hc) hcz

/-- If the node at `z` is below the node at `y`, then `z` is reached from `y`. -/
theorem Above.nested (hy : Above cfg x y) (hz : Above cfg x z)
    (hmem : z.node ∈ y.node.nodes) : Above cfg y z := by
  induction hy using Relation.ReflTransGen.head_induction_on with
  | refl => exact hz
  | @head x c hc hcy ih =>
    have hzc := mem_nodes_of_above hcy hmem
    rcases hz.cases_head with rfl | ⟨c', hc', hcz⟩
    · exact absurd rfl (id_ne_of_mem_below hx (mem_below_of_mem_steps hc hzc))
    · have hzc' := Above.node_mem hcz
      obtain rfl := eq_of_mem_steps hx hc hc' hzc hzc' rfl
      exact ih (distinct_of_mem_steps hx hc) hcz

theorem distinct_of_above (h : Above cfg x y) : y.node.Distinct := by
  induction h with
  | refl => exact hx
  | tail _ hstep ih => exact distinct_of_mem_steps ih hstep

theorem Above.antisymm (h : Above cfg x y) (h' : Above cfg y x) : x = y := by
  rcases h.cases_head with rfl | ⟨c, hc, hcy⟩
  · rfl
  · have hmem := mem_nodes_of_above hcy (mem_nodes_of_above h' x.node.self_mem_nodes)
    exact absurd rfl (id_ne_of_mem_below hx (mem_below_of_mem_steps hc hmem))

end

variable (hroot : cfg.root.Distinct)

include hroot

theorem Placed.distinct (h : Placed cfg x) : x.node.Distinct :=
  distinct_of_above (x := cfg.rootSpot) hroot h

theorem Placed.eq_of_steps (hy : Placed cfg y) (hz : Placed cfg z) (hyx : x ∈ y.steps cfg)
    (hzx : x ∈ z.steps cfg) : y = z := by
  have hlineage := (ancestors_of_mem_steps hyx).symm.trans (ancestors_of_mem_steps hzx)
  have hnode : y.node = z.node := (cons.inj hlineage).1
  exact Above.unique (x := cfg.rootSpot) hroot hy hz (congrArg _ hnode)

theorem Placed.id_ne_root (hx : Placed cfg x) (hy : y ∈ x.steps cfg) : y.node.id ≠ cfg.root.id := by
  intro hid
  obtain rfl := Above.unique (x := cfg.rootSpot) hroot .refl (hx.tail hy) hid.symm
  exact absurd rfl (Nat.ne_of_gt (level_pos_of_mem_steps hy))

/-- Whatever is above a place and is not that place is above the one before it. -/
theorem Above.above_of_steps (hx : Placed cfg x) (h : Above cfg x z) (hne : x ≠ z)
    (hy : Placed cfg y) (hz : z ∈ y.steps cfg) : Above cfg x y := by
  rcases h.cases_tail with rfl | ⟨w, hw, hwz⟩
  · exact absurd rfl hne
  · obtain rfl := Placed.eq_of_steps hroot (hx.trans hw) hy hwz hz
    exact hw

theorem exists_lowest {top : Spot} (htop : Placed cfg top) (hy : Above cfg top y)
    (hz : Above cfg top z) : ∃ x, Lowest cfg x y z := by
  induction hy with
  | refl => exact ⟨top, htop, .refl, hz, fun w _ hw _ => hw⟩
  | @tail p y hp hstep ih =>
    have hplaced : Placed cfg p := htop.trans hp
    by_cases hyz : Above cfg y z
    · exact ⟨y, hplaced.tail hstep, .refl, hyz, fun w _ hw _ => hw⟩
    · obtain ⟨x, hx, hxp, hxz, hlow⟩ := ih
      refine ⟨x, hx, hxp.tail hstep, hxz, fun w hw hwy hwz => ?_⟩
      have hne : w ≠ y := by
        rintro rfl
        exact hyz hwz
      exact hlow w hw (hwy.above_of_steps hroot hw hne hplaced hstep) hwz

end Spot

end ScopeLint
