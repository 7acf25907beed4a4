import ScopeLint.Proofs.Checker.CommonAncestor

/-! # Branches that exclude each other

Of two nodes that are visited in one pass, it is found out whether they are on different branches of the
lowest node above both. In which part of that node each of them is decides it, in the tree of the check
as well as in the tree of an example, and whatever of the other parts has been visited so far. -/
namespace ScopeLint

open List

variable {cfg : Setup} {m r n : Node} {s : State} {x : Spot} {next : Nat}

/-- The part of a branching node that a node is in. -/
inductive Side where
  | body
  | orelse
  | handler (index : Nat)
  | outside
  deriving DecidableEq

def Value.encloses (v : Value) (m : Node) : Bool := v.node?.any fun b => b.nodes.any (·.id == m.id)

namespace NodeOf

def isInside (a : Node) (name : String) (m : Node) : Bool :=
  ((Value.node a).itemsIn name).any (·.encloses m)

/-- The part of `a` that `m` is in. What is done after the body of a `try` if nothing has been raised
goes with the body, and each handler is on its own. -/
def side (d : Dialect) (a m : Node) : Side :=
  if a.kind = "If" then
    if a.isInside "body" m then .body
    else if a.isInside "orelse" m then .orelse
    else .outside
  else if a.kind = d.tryKind then
    if a.isInside "body" m || a.isInside "orelse" m then .body
    else match ((Value.node a).itemsIn "handlers").findIdx? (·.encloses m) with
      | some index => .handler index
      | none => .outside
  else if a.kind = "TryFinally" ∧ d = .twoSeven then
    if a.isInside "body" m then .body else .outside
  else .outside

def HasList (a : Node) (name : String) : Prop := ∃ items, a.get name = .ok (.list items)

/-- Whether the node has the lists that a node of its kind has. -/
structure HasBranches (d : Dialect) (a : Node) : Prop where
  condition : a.kind = "If" → a.HasList "body" ∧ a.HasList "orelse"
  attempt : a.kind = d.tryKind → a.HasList "body" ∧ a.HasList "orelse" ∧ a.HasList "handlers"
  cleanup : a.kind = "TryFinally" → d = .twoSeven → a.HasList "body"

end NodeOf

section Exclusion

variable {a : Node}

theorem Value.id_mem_of_encloses {v : Value} (h : v.encloses m = true) :
    m.id ∈ v.nodes.map (·.id) := by
  cases v with
  | node b =>
    obtain ⟨k, hk, hid⟩ := any_eq_true.mp h
    exact mem_map.mpr ⟨k, hk, beq_iff_eq.mp hid⟩
  | _ => cases h

theorem NodeOf.id_mem_of_isInside {name : String} (h : a.isInside name m = true) :
    m.id ∈ ((Pick.items name).taken (.node a)).map (·.id) := by
  obtain ⟨v, hv, hm⟩ := any_eq_true.mp h
  have htaken : ((Value.node a).itemsIn name).flatMap Value.nodes = (Pick.items name).taken (.node a) :=
    Value.flatMap_nodes_itemsIn _ name
  rw [← htaken, map_flatMap]
  exact mem_flatMap.mpr ⟨v, hv, Value.id_mem_of_encloses hm⟩

variable (ha : a.Distinct)

include ha

/-- No node is in two fields. -/
theorem NodeOf.Distinct.not_isInside {name other : String} (hne : name ≠ other)
    (h : a.isInside name m = true) : a.isInside other m = false := by
  by_contra hother
  have hnames : ([Pick.items name, Pick.items other].map Pick.name).Nodup := by
    simpa [Pick.items] using hne
  have hnodup := ha.nodup_of_subperm (Pick.flatMap_taken_subperm a _ hnames)
  rw [flatMap_cons, flatMap_singleton, map_append] at hnodup
  exact (nodup_append.mp hnodup).2.2 _ (NodeOf.id_mem_of_isInside h) _
    (NodeOf.id_mem_of_isInside (by simpa using hother)) rfl

/-- No node is in two items of one field. -/
theorem NodeOf.Distinct.pairwise_not_encloses (name : String) :
    ((Value.node a).itemsIn name).Pairwise fun v w => v.encloses m = true → w.encloses m = false := by
  have hnodup := ha.nodup_of_subperm (Pick.flatMap_taken_subperm a [.items name] (by simp))
  have htaken : ((Value.node a).itemsIn name).flatMap Value.nodes = (Pick.items name).taken (.node a) :=
    Value.flatMap_nodes_itemsIn _ name
  rw [flatMap_singleton, ← htaken, map_flatMap] at hnodup
  refine (nodup_flatMap.mp hnodup).2.imp fun {v w} hdisjoint hv => ?_
  by_contra hw
  exact hdisjoint (Value.id_mem_of_encloses hv) (Value.id_mem_of_encloses (by simpa using hw))

end Exclusion

variable {α : Type} {l : List α}

/-- Where at most one element satisfies `p` and at most one `q`, they differ somewhere exactly if the
first that satisfies `p` is not the first that satisfies `q`. -/
theorem any_bne_eq_findIdx?_bne {p q : α → Bool} (hp : l.Pairwise fun x y => p x = true → p y = false)
    (hq : l.Pairwise fun x y => q x = true → q y = false) :
    (l.any fun x => p x != q x) = (l.findIdx? p != l.findIdx? q) := by
  induction l with
  | nil => rfl
  | cons x rest ih =>
    rw [pairwise_cons] at hp hq
    have ih := ih hp.2 hq.2
    simp only [any_cons, findIdx?_cons]
    cases hpx : p x <;> cases hqx : q x
    · simp only [bne_self_eq_false, Bool.false_or, Bool.false_eq_true, if_false, ih]
      cases rest.findIdx? p <;> cases rest.findIdx? q <;> simp [bne]
    · cases rest.findIdx? p <;> simp
    · cases rest.findIdx? q <;> simp
    · have hrest : ∀ y ∈ rest, (p y != q y) = false := fun y hy => by
        simp [hp.1 y hy hpx, hq.1 y hy hqx]
      simpa using hrest

namespace State

section Sides

variable {a l : Node} (hl : s.bodiesAround cfg.root l = s.bodiesAround cfg.root a)
  (hr : s.bodiesAround cfg.root r = s.bodiesAround cfg.root a)

theorem onBranch_of_bodies (hm : s.bodiesAround cfg.root m = s.bodiesAround cfg.root a)
    (items : List Value) : s.onBranch cfg.root a m items = items.any (·.encloses m) := by
  simp only [onBranch, hm, beq_self_eq_true, Bool.true_and]
  rfl

include hl hr

/-- With no bodies in between, a branch parts two nodes if just one of them is in it. -/
theorem parted_of_forks {branches : List (List Value)}
    (hforks : forks cfg.dialect a = .ok (branches.map .list)) :
    s.parted cfg a l r = .ok (branches.any fun items =>
      items.any (·.encloses l) != items.any (·.encloses r)) := by
  rw [parted, hforks, ok_bind]
  refine anyM_eq_ok rfl fun items _ => ?_
  simp only [Value.items, ok_bind, onBranch_of_bodies hl, onBranch_of_bodies hr]
  rfl

omit hl hr in
theorem itemsIn_of_list {name : String} {items : List Value} (h : a.get name = .ok (.list items)) :
    (Value.node a).itemsIn name = items :=
  Value.itemsIn_of_get h rfl

section Kinds

variable (ha : a.Distinct) (hshape : a.HasBranches cfg.dialect)

include ha hshape

theorem parted_of_if (hkind : a.kind = "If") :
    s.parted cfg a l r = .ok (a.side cfg.dialect l != a.side cfg.dialect r) := by
  obtain ⟨⟨body, hbody⟩, orelse, horelse⟩ := hshape.condition hkind
  have hforks : forks cfg.dialect a = .ok ([body, orelse].map .list) := by
    simp [forks, hkind, hbody, horelse]
  have hexclude (m : Node) := ha.not_isInside (m := m) (show "body" ≠ "orelse" by decide)
  have hleft := hexclude l
  have hright := hexclude r
  rw [parted_of_forks hl hr hforks]
  simp only [NodeOf.isInside, itemsIn_of_list hbody, itemsIn_of_list horelse] at hleft hright
  simp only [NodeOf.side, hkind, if_true, NodeOf.isInside, itemsIn_of_list hbody,
    itemsIn_of_list horelse, any_cons, any_nil, Bool.or_false]
  cases hbl : body.any (·.encloses l) <;> cases hbr : body.any (·.encloses r) <;>
    cases hol : orelse.any (·.encloses l) <;> cases hor : orelse.any (·.encloses r) <;>
    simp_all

theorem parted_of_try (hkind : a.kind = cfg.dialect.tryKind) :
    s.parted cfg a l r = .ok (a.side cfg.dialect l != a.side cfg.dialect r) := by
  obtain ⟨⟨body, hbody⟩, ⟨orelse, horelse⟩, handlers, hhandlers⟩ := hshape.attempt hkind
  have hne : cfg.dialect.tryKind ≠ "If" := by cases cfg.dialect <;> decide
  have hforks : forks cfg.dialect a =
      .ok (((body ++ orelse) :: handlers.map fun h => [h]).map .list) := by
    simp [forks, hkind, hne, hbody, horelse, Value.add, NodeOf.itemsOf, hhandlers, Value.items]
  have hitems := itemsIn_of_list hhandlers
  -- What is in the body or done after it is in no handler.
  have hexclude (m : Node) (hm : (a.isInside "body" m || a.isInside "orelse" m) = true) :
      ∀ h ∈ handlers, h.encloses m = false := by
    have hnone : a.isInside "handlers" m = false := by
      rcases Bool.or_eq_true_iff.mp hm with hm | hm
      · exact ha.not_isInside (by decide) hm
      · exact ha.not_isInside (by decide) hm
    simpa [NodeOf.isInside, hitems] using hnone
  have hsingle (m : Node) := ha.pairwise_not_encloses (m := m) "handlers"
  simp only [hitems] at hsingle
  have hindex := any_bne_eq_findIdx?_bne (hsingle l) (hsingle r)
  have hfirst (m : Node) : (body ++ orelse).any (·.encloses m) =
      (a.isInside "body" m || a.isInside "orelse" m) := by
    simp [NodeOf.isInside, itemsIn_of_list hbody, itemsIn_of_list horelse]
  have hthird : (handlers.any fun h => [h].any (·.encloses l) != [h].any (·.encloses r)) =
      (handlers.findIdx? (·.encloses l) != handlers.findIdx? (·.encloses r)) := by simpa using hindex
  have hbranches : s.parted cfg a l r = .ok
      (((a.isInside "body" l || a.isInside "orelse" l) !=
        (a.isInside "body" r || a.isInside "orelse" r)) ||
        (handlers.findIdx? (·.encloses l) != handlers.findIdx? (·.encloses r))) := by
    rw [parted_of_forks hl hr hforks, any_cons, any_map, hfirst, hfirst, ← hthird]
    rfl
  have hnone (m : Node) (hm : (a.isInside "body" m || a.isInside "orelse" m) = true) :
      handlers.findIdx? (·.encloses m) = none :=
    findIdx?_eq_none_iff.mpr (hexclude m hm)
  rw [hbranches]
  simp only [NodeOf.side, hkind, hne, if_false, if_true, hitems]
  cases hfl : a.isInside "body" l || a.isInside "orelse" l <;>
    cases hfr : a.isInside "body" r || a.isInside "orelse" r
  · cases handlers.findIdx? (·.encloses l) <;> cases handlers.findIdx? (·.encloses r) <;> simp [bne]
  · cases handlers.findIdx? (·.encloses l) <;> simp
  · cases handlers.findIdx? (·.encloses r) <;> simp
  · simp [hnone l hfl, hnone r hfr]

omit ha in
theorem parted_of_tryFinally (hkind : a.kind = "TryFinally") (hd : cfg.dialect = .twoSeven) :
    s.parted cfg a l r = .ok (a.side cfg.dialect l != a.side cfg.dialect r) := by
  obtain ⟨body, hbody⟩ := hshape.cleanup hkind hd
  have htry : Dialect.twoSeven.tryKind ≠ "TryFinally" := by decide
  have hforks : forks cfg.dialect a = .ok ([body].map .list) := by
    simp [forks, hkind, hd, htry.symm, hbody]
  rw [parted_of_forks hl hr hforks]
  simp only [NodeOf.side, hkind, hd, htry.symm, NodeOf.isInside, itemsIn_of_list hbody, any_cons,
    any_nil, Bool.or_false]
  cases body.any (·.encloses l) <;> cases body.any (·.encloses r) <;> simp

/-- Two nodes are parted below `a` if they are in different parts of it. -/
theorem parted_eq_side : s.parted cfg a l r = .ok (a.side cfg.dialect l != a.side cfg.dialect r) := by
  by_cases hif : a.kind = "If"
  · exact parted_of_if hl hr ha hshape hif
  by_cases htry : a.kind = cfg.dialect.tryKind
  · exact parted_of_try hl hr ha hshape htry
  by_cases hfinally : a.kind = "TryFinally" ∧ cfg.dialect = .twoSeven
  · exact parted_of_tryFinally hl hr hshape hfinally.1 hfinally.2
  · have hforks : forks cfg.dialect a = .ok ([].map .list) := by
      rw [forks, if_neg hif, if_neg htry, if_neg hfinally]
      rfl
    rw [parted_of_forks hl hr hforks]
    simp [NodeOf.side, hif, htry, hfinally]

end Kinds

end Sides

/-- The node has been visited in the tree: the nodes above it end there. -/
structure VisitedIn (s : State) (tree n : Node) : Prop where
  mem : n ∈ tree.nodes
  marked : (s.mark? n).isSome = true
  last : (s.lineage n).getLast? = some tree

end State

theorem Spot.Placed.getLast?_lineage (h : Placed cfg x) :
    x.lineage.getLast? = some cfg.root := by
  induction h with
  | refl => rfl
  | tail _ hstep ih =>
    rw [lineage, ancestors_of_mem_steps hstep, getLast?_cons, ih]
    rfl

namespace State

variable {trees : List Node} {tree l : Node} {y a : Spot}

variable (hs : s.Surveyed cfg trees)

include hs

theorem Surveyed.visitedIn (htree : tree ∈ trees) (hn : n ∈ tree.nodes)
    (hmark : (s.mark? n).isSome = true) : s.VisitedIn tree n := by
  obtain ⟨k, hk⟩ := Option.isSome_iff_exists.mp hmark
  obtain ⟨x, hx, rfl, -⟩ := (hs.charted tree htree).marked n hn k hk
  refine ⟨hn, hmark, ?_⟩
  rw [(hs.charted tree htree).lineage_eq (hs.numbered htree) hx (.inr hmark)]
  exact hx.getLast?_lineage

theorem Surveyed.mem_of_visitedIn (h : s.VisitedIn tree n) : tree ∈ trees := by
  obtain ⟨other, hother, m, hm, hid⟩ := hs.covered n.id h.marked
  have hmark : s.mark? m = s.mark? n := by rw [mark?, mark?, hid]
  obtain ⟨k, hk⟩ := Option.isSome_iff_exists.mp h.marked
  obtain ⟨x, hx, hnode, hlevel, rfl, -⟩ := (hs.charted other hother).marked m hm k (hmark.trans hk)
  have hlast := hx.getLast?_lineage
  have hown := h.last
  rcases hx.cases_tail with rfl | ⟨w, hw, hstep⟩
  · cases hlevel
  · rw [lineage, hk, Spot.ancestors_of_mem_steps hstep, getLast?_cons,
      Spot.Placed.getLast?_lineage hw] at hown
    obtain rfl : other = tree := Option.some.inj hown
    exact hother

/-- The climbs from two nodes that have been visited in one body of one tree meet, whether they are told
to stop at the root of that tree or of another. -/
theorem Surveyed.commonAncestor_eq (htree : tree ∈ trees)
    (hroot : cfg.root ∈ trees) (hx : Spot.Placed (cfg.over tree) x)
    (hy : Spot.Placed (cfg.over tree) y) (hxmark : (s.mark? x.node).isSome = true)
    (hymark : (s.mark? y.node).isSome = true) (hbodies : x.bodies = y.bodies)
    (ha : Spot.Lowest (cfg.over tree) a x y) :
    s.commonAncestor cfg.root x.node y.node = some a.node := by
  have hnum := hs.numbered htree
  have hc := hs.charted tree htree
  have hlevel {z : Spot} (hz : Spot.Placed (cfg.over tree) z) (hmark : (s.mark? z.node).isSome = true) :
      0 < z.level := by
    rcases hc.root_or_marked hnum hz (.inr hmark) with ⟨-, hnone⟩ | ⟨hpos, -⟩
    · rw [hnone] at hmark
      cases hmark
    · exact hpos
  have hxlevel := hlevel hx hxmark
  have hylevel := hlevel hy hymark
  by_cases hsame : cfg.root = tree
  · subst hsame
    have hmeet := State.commonAncestor_eq hnum hc .refl hx hy (.inr hxmark) (.inr hymark) ha
    rwa [if_pos hbodies] at hmeet
  · refine commonAncestor_of_foreign hnum hc (fun m hm hid => hsame ?_) hx hy (.inr hxmark)
      (.inr hymark) hbodies (by omega) ha
    exact (hs.eq_of_id hroot htree (NodeOf.self_mem_nodes _) hm hid).1

/-- Two nodes that are in no further bodies below the lowest node above both are told to be on different
branches exactly if they are in different parts of that node. -/
theorem Surveyed.differentForks_eq (htree : tree ∈ trees)
    (hroot : cfg.root ∈ trees) (ha : Spot.Lowest (cfg.over tree) a x y)
    (hxmark : (s.mark? x.node).isSome = true) (hymark : (s.mark? y.node).isSome = true)
    (hleft : s.bodiesAround tree x.node = s.bodiesAround tree a.node)
    (hright : s.bodiesAround tree y.node = s.bodiesAround tree a.node)
    (hshape : a.node.HasBranches cfg.dialect) : s.differentForks cfg x.node y.node =
      .ok (a.node.side cfg.dialect x.node != a.node.side cfg.dialect y.node) := by
  have hnum := hs.numbered htree
  have hc := hs.charted tree htree
  have hx : Spot.Placed (cfg.over tree) x := ha.placed.trans ha.left
  have hy : Spot.Placed (cfg.over tree) y := ha.placed.trans ha.right
  have hbodies : x.bodies = y.bodies := by
    rw [← bodiesAround_eq hnum hc hx (.inr hxmark), ← bodiesAround_eq hnum hc hy (.inr hymark)]
    exact hleft.trans hright.symm
  have hmeet := hs.commonAncestor_eq htree hroot hx hy hxmark hymark hbodies ha
  have hparted : s.parted (cfg.over tree) a.node x.node y.node = _ :=
    parted_eq_side hleft hright (ha.placed.distinct hnum.distinct) hshape
  exact (differentForks_over hnum hc ha.placed ha.left ha.right (.inr hxmark) (.inr hymark)
    hmeet).trans hparted

end State

namespace Check

theorem visitedIn_root (hnum : cfg.Numbered next) (stop : Moment → State → Bool)
    (hn : n ∈ cfg.root.nodes) (hmark : ((reached cfg stop next).mark? n).isSome = true) :
    (reached cfg stop next).VisitedIn cfg.root n := by
  obtain ⟨trees, hroot, hs⟩ := surveyed_reached hnum stop
  exact hs.visitedIn hroot hn hmark

/-- At every moment of a run over a tree without shared nodes, let two nodes have been visited in one
tree, that of the check or of an example, and neither of them in a further body below the lowest visited
node above both. Whichever of the two comes first, they are told to be on different branches exactly if
they are in different parts of that node. -/
theorem differentForks_reached (cfg : Setup) (stop : Moment → State → Bool) (next : Nat)
    (hnum : cfg.Numbered next) (tree l r : Node)
    (hl : (reached cfg stop next).VisitedIn tree l) (hr : (reached cfg stop next).VisitedIn tree r) :
    let s := reached cfg stop next
    ∃ a, s.LowestCommon (cfg.over tree) l r a ∧
      (s.bodiesAround tree l = s.bodiesAround tree a → s.bodiesAround tree r = s.bodiesAround tree a →
        a.HasBranches cfg.dialect →
        s.differentForks cfg l r = .ok (a.side cfg.dialect l != a.side cfg.dialect r) ∧
          s.differentForks cfg r l = .ok (a.side cfg.dialect l != a.side cfg.dialect r)) := by
  obtain ⟨trees, hroot, hs⟩ := surveyed_reached hnum stop
  have htree := hs.mem_of_visitedIn hl
  have hnumber := hs.numbered htree
  have hc := hs.charted tree htree
  obtain ⟨x, hx, rfl⟩ := hc.exists_spot hnumber hl.mem (.inr hl.marked)
  obtain ⟨y, hy, rfl⟩ := hc.exists_spot hnumber hr.mem (.inr hr.marked)
  obtain ⟨a, ha⟩ := Spot.exists_lowest hnumber.distinct .refl hx hy
  refine ⟨a.node, State.lowestCommon_of_lowest hnumber hc ha (.inr hl.marked), ?_⟩
  intro hleft hright hshape
  have hforth := hs.differentForks_eq htree hroot ha hl.marked hr.marked hleft hright hshape
  have hback := hs.differentForks_eq htree hroot ha.symm hr.marked hl.marked hright hleft hshape
  exact ⟨hforth, hback.trans (congrArg _ (bne_comm ..))⟩

open Sample

/-- Two imports on the branches of a condition, in the body of one function: the lowest node above both
is the node 3. -/
theorem differentForks_reached_branches :
    let l := nodeOf branches 6
    let r := nodeOf branches 8
    (nodeOf branches 3).side branches.dialect l = .body ∧
      (nodeOf branches 3).side branches.dialect r = .orelse ∧
      (final branches).differentForks branches l r = .ok true ∧
      (final branches).differentForks branches r l = .ok true := by
  have hnum : branches.Numbered branches.root.size := ⟨by decide +kernel, by decide +kernel⟩
  have hvisited (id : Nat) (hid : ((final branches).mark? (nodeOf branches id)).isSome = true) :
      (final branches).VisitedIn branches.root (nodeOf branches id) :=
    visitedIn_root hnum (fun _ _ => false) (nodeOf_mem _ _) hid
  obtain ⟨a, ha, hforks⟩ := differentForks_reached branches (fun _ _ => false) branches.root.size hnum
    branches.root (nodeOf branches 6) (nodeOf branches 8) (hvisited 6 (by decide +kernel))
    (hvisited 8 (by decide +kernel))
  have hbelow (id : Nat) (hid : (nodeOf branches id).id ∈ (nodeOf branches 3).nodes.map (·.id)) :
      nodeOf branches id ∈ (nodeOf branches 3).nodes := by
    obtain ⟨m, hm, hmid⟩ := List.mem_map.mp hid
    have hroot := (NodeOf.sublist_of_mem_nodes _ (nodeOf_mem branches 3)).subset hm
    exact hnum.distinct.eq_of_id hroot (nodeOf_mem _ _) hmid ▸ hm
  have hlow := ha.lowest (nodeOf branches 3) (nodeOf_mem _ _) (.inr (by decide +kernel))
    (hbelow 6 (by decide +kernel)) (hbelow 8 (by decide +kernel))
  have honly : ∀ x ∈ branches.root.nodes, x.id ∈ (nodeOf branches 3).nodes.map (·.id) →
      (nodeOf branches 6).id ∈ x.nodes.map (·.id) → (nodeOf branches 8).id ∈ x.nodes.map (·.id) →
      x.id = (nodeOf branches 3).id := by
    decide +kernel
  obtain rfl : a = nodeOf branches 3 := hnum.distinct.eq_of_id ha.mem (nodeOf_mem _ _)
    (honly a ha.mem (List.mem_map_of_mem hlow) (List.mem_map_of_mem ha.left)
      (List.mem_map_of_mem ha.right))
  have hl : (nodeOf branches 3).side branches.dialect (nodeOf branches 6) = .body := by decide +kernel
  have hr : (nodeOf branches 3).side branches.dialect (nodeOf branches 8) = .orelse := by
    decide +kernel
  have hshape : (nodeOf branches 3).HasBranches branches.dialect :=
    ⟨fun _ => ⟨⟨_, rfl⟩, _, rfl⟩, fun h => absurd h (by decide +kernel),
      fun h => absurd h (by decide +kernel)⟩
  rw [hl, hr] at hforks
  exact ⟨hl, hr, hforks (by decide +kernel) (by decide +kernel) hshape⟩

end Check

end ScopeLint
