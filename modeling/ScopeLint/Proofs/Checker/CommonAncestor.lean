import ScopeLint.Proofs.Checker.Climb

/-! # Common ancestors in the tree

What the climbs come to, said in terms of the tree: nodes, the nodes below them, and the bodies of
functions that they are in. -/
namespace ScopeLint

open List Spot

variable {cfg : Setup} {m f b : Node} {s : State} {x y z l r top : Spot} {next : Nat}

namespace NodeOf

/-- Whether a node is in the body of the function. -/
def holdsInBody (f m : Node) : Bool := (f.deferred.flatMap Value.nodes).any (·.id == m.id)

theorem holdsInBody_iff :
    f.holdsInBody m = true ↔ ∃ a ∈ f.deferred.flatMap Value.nodes, a.id = m.id := by
  simp only [holdsInBody, any_eq_true, beq_iff_eq]

end NodeOf

namespace State

/-- The number of visited functions in whose bodies the node is. -/
def bodiesAround (s : State) (root m : Node) : Nat :=
  root.nodes.countP fun f => (s.mark? f).isSome && f.isFunction && f.holdsInBody m

/-- The lowest among the visited nodes, and the root, that are above two nodes of the tree. -/
structure LowestCommon (s : State) (cfg : Setup) (l r a : Node) : Prop where
  mem : a ∈ cfg.root.nodes
  seen : s.Seen cfg a
  left : l ∈ a.nodes
  right : r ∈ a.nodes
  lowest : ∀ x ∈ cfg.root.nodes, s.Seen cfg x → l ∈ x.nodes → r ∈ x.nodes → a ∈ x.nodes

/-- Whether the node is on the branch below `a` that consists of the items, and in no further
bodies. -/
def onBranch (s : State) (root a m : Node) (items : List Value) : Bool :=
  s.bodiesAround root m == s.bodiesAround root a &&
    items.any fun v => v.node?.any fun b => b.nodes.any (·.id == m.id)

variable {root p : Node} {items : List Value}

theorem descendantOf_iff : s.descendantOf root m items (some p) = true ↔
      ∃ b, .node b ∈ items ∧ ∃ a, s.commonAncestor p m b = some a ∧ p.id ≠ a.id := by
  simp only [descendantOf, any_eq_true, Option.getD_some, Option.any_some,
    Option.isNone_some, Bool.and_false]
  constructor
  · rintro ⟨v, hv, hmeet⟩
    cases v with
    | node b =>
      refine ⟨b, hv, ?_⟩
      cases hc : s.commonAncestor p m b with
      | none => simp [hc] at hmeet
      | some a => exact ⟨a, rfl, by simpa [hc] using hmeet⟩
    | _ => cases hmeet
  · rintro ⟨b, hb, a, hc, hne⟩
    exact ⟨.node b, hb, by simp [hc, hne]⟩

theorem onBranch_iff : s.onBranch root p m items = true ↔
      s.bodiesAround root m = s.bodiesAround root p ∧
        ∃ b, .node b ∈ items ∧ ∃ a ∈ b.nodes, a.id = m.id := by
  simp only [onBranch, Bool.and_eq_true, beq_iff_eq, any_eq_true]
  refine and_congr_right fun _ => ?_
  constructor
  · rintro ⟨v, hv, hbelow⟩
    cases v with
    | node b => exact ⟨b, hv, by simpa [Value.node?] using hbelow⟩
    | _ => cases hbelow
  · rintro ⟨b, hb, hbelow⟩
    exact ⟨.node b, hb, by simpa [Value.node?] using hbelow⟩

end State

namespace Spot

/-- Whether `y` is reached through the body of the function at `x`. -/
def BodyAbove (cfg : Setup) (x y : Spot) : Prop :=
  ∃ m, .node m ∈ cfg.deferredAt x.node ∧ Above cfg (x.inBody m) y

theorem BodyAbove.above (h : BodyAbove cfg x y) : Above cfg x y := by
  obtain ⟨m, hm, habove⟩ := h
  exact .head (mem_steps.mpr (.inr ⟨m, hm, rfl⟩)) habove

/-- Only functions other than the root have bodies that are put off. -/
theorem BodyAbove.isFunction (h : BodyAbove cfg x y) :
    x.node.id ≠ cfg.root.id ∧ x.node.isFunction = true := by
  obtain ⟨m, hm, -⟩ := h
  unfold Setup.deferredAt at hm
  split at hm
  · cases hm
  · split at hm
    · exact ⟨‹_›, ‹_›⟩
    · cases hm

theorem BodyAbove.bodies_lt (h : BodyAbove cfg x y) : x.bodies < y.bodies := by
  obtain ⟨m, -, habove⟩ := h
  have hbodies : (x.inBody m).bodies = x.bodies + 1 := rfl
  rcases habove.order with hlt | ⟨heq, -⟩ <;> omega

variable (hroot : cfg.root.Distinct)

include hroot

theorem holdsInBody_iff (hx : Placed cfg x) (hy : Placed cfg y) (hne : x.node.id ≠ cfg.root.id)
    (hfunction : x.node.isFunction = true) :
    x.node.holdsInBody y.node = true ↔ BodyAbove cfg x y := by
  have hdeferred : cfg.deferredAt x.node = x.node.deferred := by
    rw [Setup.deferredAt, if_neg hne, if_pos hfunction]
  rw [NodeOf.holdsInBody_iff, BodyAbove, hdeferred]
  constructor
  · rintro ⟨a, ha, hid⟩
    have hparts : a ∈ (cfg.handedAt x.node ++ cfg.deferredAt x.node).flatMap Value.nodes := by
      rw [flatMap_append, hdeferred]
      exact mem_append_right _ ha
    have hbelow := (cfg.flatMap_partsAt_subperm x.node).subset hparts
    have hmem : a ∈ x.node.nodes := by
      rw [NodeOf.nodes_eq]
      exact mem_cons_of_mem _ hbelow
    obtain rfl : a = y.node := NodeOf.Distinct.eq_of_id (n := cfg.root) hroot
      (mem_nodes_of_above hx hmem) hy.node_mem hid
    have hxy := Above.nested (x := cfg.rootSpot) hroot hx hy hmem
    rcases hxy.cases_head with rfl | ⟨c, hc, hcy⟩
    · exact absurd rfl (id_ne_of_mem_below (hx.distinct hroot) hbelow)
    · rcases mem_steps.mp hc with ⟨m, hm, rfl⟩ | ⟨m, hm, rfl⟩
      · -- Then the node would be in what is handed on as well as in the body.
        have hnodup := (hx.distinct hroot).nodup_of_subperm (cfg.flatMap_partsAt_subperm x.node)
        rw [flatMap_append, map_append, hdeferred] at hnodup
        have hhanded : y.node ∈ (cfg.handedAt x.node).flatMap Value.nodes :=
          mem_flatMap.mpr ⟨_, hm, Above.node_mem hcy⟩
        exact absurd rfl ((nodup_append.mp hnodup).2.2 _ (mem_map_of_mem hhanded) _
          (mem_map_of_mem ha))
      · exact ⟨m, hdeferred ▸ hm, hcy⟩
  · rintro ⟨m, hm, habove⟩
    exact ⟨y.node, mem_flatMap.mpr ⟨.node m, hm, habove.node_mem⟩, rfl⟩

/-- A step is through one more body exactly if it goes into the body of the function there. -/
theorem bodyAbove_step (hx : Placed cfg x) (hy : Placed cfg y) (hz : z ∈ y.steps cfg) :
    BodyAbove cfg x z ↔ BodyAbove cfg x y ∨ (x = y ∧ z.bodies = y.bodies + 1) := by
  constructor
  · rintro ⟨m, hm, habove⟩
    have hstep : x.inBody m ∈ x.steps cfg := mem_steps.mpr (.inr ⟨m, hm, rfl⟩)
    by_cases heq : x.inBody m = z
    · subst heq
      obtain rfl := Placed.eq_of_steps hroot hx hy hstep hz
      exact .inr ⟨rfl, rfl⟩
    · exact .inl ⟨m, hm, habove.above_of_steps hroot (hx.tail hstep) heq hy hz⟩
  · rintro (⟨m, hm, habove⟩ | ⟨rfl, hbodies⟩)
    · exact ⟨m, hm, habove.tail hz⟩
    · rcases mem_steps.mp hz with ⟨m, -, rfl⟩ | ⟨m, hm, rfl⟩
      · exact absurd hbodies (Nat.ne_of_lt (Nat.lt_succ_self _))
      · exact ⟨m, hm, .refl⟩

end Spot

/-- One more element counts if it is the one that did not count before. -/
theorem countP_eq_succ {α : Type} {p q : α → Bool} {l : List α} {a : α} (hl : l.Nodup)
    (ha : a ∈ l) (hp : p a = false) (hq : ∀ b ∈ l, q b = true ↔ p b = true ∨ b = a) :
    l.countP q = l.countP p + 1 := by
  obtain ⟨before, after, rfl⟩ := append_of_mem ha
  have hothers : a ∉ before ++ after := (nodup_middle.mp hl).notMem
  have hsame (others : List α) (h : others ⊆ before ++ after) :
      others.countP q = others.countP p := by
    refine countP_congr fun b hb => ?_
    have hne : b ≠ a := by
      rintro rfl
      exact hothers (h hb)
    have hmem : b ∈ before ++ a :: after := by
      have hb := h hb
      simp only [mem_append, mem_cons] at hb ⊢
      tauto
    rw [hq b hmem, or_iff_left hne]
  have hqa : q a = true := (hq a ha).mpr (.inr rfl)
  rw [countP_append, countP_append, countP_cons_of_pos hqa,
    countP_cons_of_neg (by simp [hp]), hsame before (subset_append_left _ _),
    hsame after (subset_append_right _ _), Nat.add_assoc]

namespace State

variable (hnum : cfg.Numbered next) (hs : s.Charted cfg)

include hnum hs

theorem Charted.exists_spot {n : Node} (hn : n ∈ cfg.root.nodes) (hseen : s.Seen cfg n) :
    ∃ x, Placed cfg x ∧ x.node = n := by
  rcases hseen with hid | hmark
  · exact ⟨cfg.rootSpot, .refl,
      hnum.distinct.eq_of_id (NodeOf.self_mem_nodes _) hn hid.symm⟩
  · obtain ⟨k, hk⟩ := Option.isSome_iff_exists.mp hmark
    obtain ⟨x, hx, hnode, -⟩ := hs.marked n hn k hk
    exact ⟨x, hx, hnode⟩

theorem counts_iff (hy : Placed cfg y) (hyseen : s.Seen cfg y.node) (hf : f ∈ cfg.root.nodes) :
    ((s.mark? f).isSome && f.isFunction && f.holdsInBody y.node) = true ↔
      ∃ x, Placed cfg x ∧ x.node = f ∧ BodyAbove cfg x y := by
  rw [Bool.and_eq_true, Bool.and_eq_true]
  constructor
  · rintro ⟨⟨hmark, hfunction⟩, hbody⟩
    obtain ⟨k, hk⟩ := Option.isSome_iff_exists.mp hmark
    obtain ⟨x, hx, rfl, hlevel, -, -⟩ := hs.marked f hf k hk
    have hne : x.node.id ≠ cfg.root.id := by
      intro hid
      obtain rfl := Above.unique (x := cfg.rootSpot) hnum.distinct hx .refl hid
      exact Nat.lt_irrefl 0 hlevel
    exact ⟨x, hx, rfl, (holdsInBody_iff hnum.distinct hx hy hne hfunction).mp hbody⟩
  · rintro ⟨x, hx, rfl, hbody⟩
    obtain ⟨hne, hfunction⟩ := hbody.isFunction
    have hseen := hs.seen_of_above hnum hx hbody.above hyseen
    exact ⟨⟨hseen.resolve_left hne, hfunction⟩,
      (holdsInBody_iff hnum.distinct hx hy hne hfunction).mpr hbody⟩

theorem counts_step (hy : Placed cfg y) (hz : z ∈ y.steps cfg) (hseen : s.Seen cfg z.node)
    (hf : f ∈ cfg.root.nodes) :
    ((s.mark? f).isSome && f.isFunction && f.holdsInBody z.node) = true ↔
      ((s.mark? f).isSome && f.isFunction && f.holdsInBody y.node) = true ∨
        (f = y.node ∧ z.bodies = y.bodies + 1) := by
  have hyseen := hs.seen_of_steps hnum hy hz hseen
  have hstep (w : Spot) (hw : Placed cfg w) := bodyAbove_step hnum.distinct hw hy hz
  rw [counts_iff hnum hs (hy.tail hz) hseen hf, counts_iff hnum hs hy hyseen hf]
  constructor
  · rintro ⟨w, hw, rfl, hbody⟩
    rcases (hstep w hw).mp hbody with hbody | ⟨rfl, hbodies⟩
    · exact .inl ⟨w, hw, rfl, hbody⟩
    · exact .inr ⟨rfl, hbodies⟩
  · rintro (⟨w, hw, rfl, hbody⟩ | ⟨rfl, hbodies⟩)
    · exact ⟨w, hw, rfl, (hstep w hw).mpr (.inl hbody)⟩
    · exact ⟨y, hy, rfl, (hstep y hy).mpr (.inr ⟨rfl, hbodies⟩)⟩

theorem not_counts_self (hy : Placed cfg y) (hseen : s.Seen cfg y.node) :
    ((s.mark? y.node).isSome && y.node.isFunction && y.node.holdsInBody y.node) = false := by
  rw [← Bool.not_eq_true, counts_iff hnum hs hy hseen hy.node_mem]
  rintro ⟨w, hw, hwy, hbody⟩
  obtain rfl := Above.unique (x := cfg.rootSpot) hnum.distinct hw hy (congrArg _ hwy)
  exact Nat.lt_irrefl _ hbody.bodies_lt

/-- The bodies around a node, counted in the tree, are those on the way to its place. -/
theorem bodiesAround_eq (hx : Placed cfg x) (hseen : s.Seen cfg x.node) :
    s.bodiesAround cfg.root x.node = x.bodies := by
  have hnodup : cfg.root.nodes.Nodup := List.Nodup.of_map _ hnum.distinct
  unfold bodiesAround
  induction hx with
  | refl =>
    refine countP_eq_zero.mpr fun f hf hcounts => ?_
    obtain ⟨w, -, -, hbody⟩ := (counts_iff hnum hs .refl hseen hf).mp hcounts
    exact absurd hbody.bodies_lt (Nat.not_lt_zero _)
  | @tail y z hy hz ih =>
    have hyplaced : Placed cfg y := hy
    have hyseen := hs.seen_of_steps hnum hyplaced hz hseen
    rcases level_of_mem_steps hz with ⟨-, hbodies⟩ | ⟨-, hbodies⟩
    · rw [hbodies, ← ih hyseen]
      refine countP_congr fun f hf => ?_
      rw [counts_step hnum hs hyplaced hz hseen hf]
      exact or_iff_left fun h => absurd (hbodies.symm.trans h.2) (Nat.ne_of_lt (Nat.lt_succ_self _))
    · rw [hbodies, ← ih hyseen]
      refine countP_eq_succ hnodup hyplaced.node_mem (not_counts_self hnum hs hyplaced hyseen) ?_
      intro f hf
      rw [counts_step hnum hs hyplaced hz hseen hf]
      exact or_congr_right (and_iff_left hbodies)

theorem lowestCommon_of_lowest {a l r : Spot} (ha : Lowest cfg a l r)
    (hseen : s.Seen cfg l.node) : s.LowestCommon cfg l.node r.node a.node where
  mem := ha.placed.node_mem
  seen := hs.seen_of_above hnum ha.placed ha.left hseen
  left := ha.left.node_mem
  right := ha.right.node_mem
  lowest := by
    intro x hx hxseen hl hr
    obtain ⟨w, hw, rfl⟩ := hs.exists_spot hnum hx hxseen
    have hwl := Above.nested (x := cfg.rootSpot) hnum.distinct hw (ha.placed.trans ha.left) hl
    have hwr := Above.nested (x := cfg.rootSpot) hnum.distinct hw (ha.placed.trans ha.right) hr
    exact (ha.above w hw hwl hwr).node_mem

variable {n : Spot}

/-- A climb from a node of which nothing is recorded comes to nothing. -/
theorem commonAncestor_of_not_seen (hn : Placed cfg n) (hseen : s.Seen cfg n.node)
    (hb : ¬ s.Seen cfg b) (h : s.commonAncestor top.node n.node b = some m) : m = top.node := by
  have hmark : s.mark? b = none := Option.not_isSome_iff_eq_none.mp fun h => hb (.inr h)
  have hlineage : s.lineage b = [b] := by rw [lineage, hmark]
  have hids : n.node.id ≠ b.id := by
    intro hid
    refine hb (hseen.imp (fun h => hid.symm.trans h) fun h => ?_)
    rwa [mark?, ← hid]
  simp only [commonAncestor] at h
  rw [hs.lineage_eq hnum hn hseen, hlineage, Spot.lineage, length_singleton, meetWithin,
    if_neg hids] at h
  split at h
  · exact (Option.some.inj h).symm
  · simp at h

/-- The climbs from a node and from an item of a branch meet below the branches exactly if the node
is below the item and in no further bodies. -/
theorem meets_item_iff (htop : Placed cfg top) (hn : Above cfg top n)
    (hseen : s.Seen cfg n.node) (hb : top.below b ∈ top.steps cfg) :
    (∃ m, s.commonAncestor top.node n.node b = some m ∧ top.node.id ≠ m.id) ↔
      n.bodies = top.bodies ∧ n.node ∈ b.nodes := by
  have hroot := hnum.distinct
  have hplaced : Placed cfg (top.below b) := htop.tail hb
  have hitem : Above cfg top (top.below b) := .single hb
  have hnested (hmem : n.node ∈ b.nodes) : Above cfg (top.below b) n :=
    Above.nested (x := cfg.rootSpot) hroot hplaced (htop.trans hn) hmem
  by_cases hbseen : s.Seen cfg b
  · obtain ⟨low, hlow⟩ := exists_lowest hroot htop hn hitem
    have hmeet : s.commonAncestor top.node n.node b =
        some (if n.bodies = top.bodies then low.node else top.node) :=
      commonAncestor_eq hnum hs htop hn hitem hseen hbseen hlow
    rw [hmeet]
    constructor
    · rintro ⟨m, hm, hne⟩
      have hbodies : n.bodies = top.bodies := by
        by_contra hbodies
        rw [if_neg hbodies] at hm
        exact hne (congrArg _ (Option.some.inj hm))
      rw [if_pos hbodies] at hm
      refine ⟨hbodies, ?_⟩
      have heq : low = top.below b := by
        by_contra hlowne
        have habove := hlow.right.above_of_steps hroot hlow.placed hlowne htop hb
        rw [← hlow.eq_of_above hroot htop hn hitem habove] at hne
        exact hne (congrArg _ (Option.some.inj hm))
      rw [heq] at hlow
      exact hlow.left.node_mem
    · rintro ⟨hbodies, hmem⟩
      rw [if_pos hbodies, hlow.eq_of_above hroot hplaced (hnested hmem) .refl hlow.right]
      have hbelow := mem_below_of_mem_steps hb b.self_mem_nodes
      exact ⟨b, rfl, (id_ne_of_mem_below (htop.distinct hroot) hbelow).symm⟩
  · constructor
    · rintro ⟨m, hm, hne⟩
      rw [commonAncestor_of_not_seen hnum hs (htop.trans hn) hseen hbseen hm] at hne
      exact absurd rfl hne
    · rintro ⟨-, hmem⟩
      exact absurd (hs.seen_of_above hnum hplaced (hnested hmem) hseen) hbseen

/-- To be below an item is to be on the branch. -/
theorem descendantOf_eq (htop : Placed cfg top) (hn : Above cfg top n)
    (hseen : s.Seen cfg n.node) {items : List Value}
    (hitems : ∀ b, .node b ∈ items → top.below b ∈ top.steps cfg) (root : Node) :
    s.descendantOf root n.node items (some top.node) =
      s.onBranch cfg.root top.node n.node items := by
  have htopseen := hs.seen_of_above hnum htop hn hseen
  have hmem (b : Node) (hb : .node b ∈ items) :
      (∃ a ∈ b.nodes, a.id = n.node.id) ↔ n.node ∈ b.nodes := by
    refine ⟨?_, fun h => ⟨n.node, h, rfl⟩⟩
    rintro ⟨a, ha, hid⟩
    have hroot : a ∈ cfg.root.nodes :=
      mem_nodes_of_above (htop.tail (hitems b hb)) ha
    have heq := hnum.distinct.eq_of_id hroot
      (Above.node_mem (htop.trans hn)) hid
    exact heq ▸ ha
  rw [Bool.eq_iff_iff, descendantOf_iff, onBranch_iff,
    bodiesAround_eq hnum hs (htop.trans hn) hseen, bodiesAround_eq hnum hs htop htopseen]
  constructor
  · rintro ⟨b, hb, hmeet⟩
    obtain ⟨hbodies, hin⟩ := (meets_item_iff hnum hs htop hn hseen (hitems b hb)).mp hmeet
    exact ⟨hbodies, b, hb, (hmem b hb).mpr hin⟩
  · rintro ⟨hbodies, b, hb, hbelow⟩
    have hin := (hmem b hb).mp hbelow
    exact ⟨b, hb, (meets_item_iff hnum hs htop hn hseen (hitems b hb)).mpr ⟨hbodies, hin⟩⟩

end State

section Forks

variable {d : Dialect} {n : Node}

theorem NodeOf.mem_handed_tryBlock (hn : n.Distinct) (hb : b ∈ n.children) :
    .node b ∈ Rule.handed d n .tryBlock := by
  simp only [Rule.handed, mem_append, mem_map, mem_filter]
  by_cases hheld : ((do (← n.get "body").holds b).toOption).getD false = true
  · left
    cases hbody : n.get "body" with
    | error e =>
      rw [hbody] at hheld
      cases hheld
    | ok w =>
      rw [hbody, ok_bind] at hheld
      cases w with
      | list items =>
        obtain ⟨v, hv, hid⟩ := any_eq_true.mp hheld
        have hvalue : (Value.node n).get "body" = .ok (.list items) := hbody
        rw [Value.itemsIn_of_get hvalue rfl]
        cases v with
        | node c =>
          have hc : c ∈ n.children :=
            mem_children_of_get hbody (Value.mem_children_of_items rfl hv)
          have heq := hn.eq_of_id (mem_nodes_of_mem_children hc) (mem_nodes_of_mem_children hb)
            (by simpa [Value.node?] using hid)
          exact heq ▸ hv
        | _ => cases hid
      | _ => cases hheld
  · right
    exact ⟨b, ⟨hb, by simpa using hheld⟩, rfl⟩

theorem NodeOf.mem_handed_of_kind (hn : n.Distinct) (hb : b ∈ n.children)
    (hkind : n.kind ∈ ["If", "Try", "TryExcept", "TryFinally"]) : .node b ∈ n.handed d := by
  have hif : Rule.of? "If" = some .descend := by decide +kernel
  have htry : Rule.of? "Try" = some .tryBlock := by decide +kernel
  have hexcept : Rule.of? "TryExcept" = some .tryBlock := by decide +kernel
  have hfinally : Rule.of? "TryFinally" = some .descend := by decide +kernel
  simp only [mem_cons, not_mem_nil, or_false] at hkind
  unfold NodeOf.handed
  rcases hkind with hkind | hkind | hkind | hkind
  · rw [hkind, hif]
    exact mem_map_of_mem hb
  · rw [hkind, htry]
    exact mem_handed_tryBlock hn hb
  · rw [hkind, hexcept]
    exact mem_handed_tryBlock hn hb
  · rw [hkind, hfinally]
    exact mem_map_of_mem hb

theorem State.mem_children_of_forks {branches : List Value} (hf : State.forks d n = .ok branches)
    {branch : Value} (hbranch : branch ∈ branches) {items : List Value}
    (hitems : branch.items = .ok items) (hb : .node b ∈ items) :
    b ∈ n.children ∧ n.kind ∈ ["If", "Try", "TryExcept", "TryFinally"] := by
  have hchild {name : String} {v : Value} {items : List Value} (hget : n.get name = .ok v)
      (hitems : v.items = .ok items) (hb : .node b ∈ items) : b ∈ n.children :=
    NodeOf.mem_children_of_get hget (Value.mem_children_of_items hitems hb)
  unfold State.forks at hf
  split at hf
  · rename_i hkind
    obtain ⟨body, hbody, hf⟩ := bind_eq_ok.mp hf
    obtain ⟨orelse, horelse, hf⟩ := bind_eq_ok.mp hf
    cases hf
    refine ⟨?_, by simp [hkind]⟩
    simp only [mem_cons, not_mem_nil, or_false] at hbranch
    rcases hbranch with rfl | rfl
    · exact hchild hbody hitems hb
    · exact hchild horelse hitems hb
  split at hf
  · rename_i hkind
    obtain ⟨body, hbody, hf⟩ := bind_eq_ok.mp hf
    obtain ⟨orelse, horelse, hf⟩ := bind_eq_ok.mp hf
    obtain ⟨sum, hsum, hf⟩ := bind_eq_ok.mp hf
    obtain ⟨handlers, hhandlers, hf⟩ := bind_eq_ok.mp hf
    obtain ⟨held, hheld, hhandlers⟩ := bind_eq_ok.mp hhandlers
    cases hf
    refine ⟨?_, by cases d <;> simp [hkind, Dialect.tryKind]⟩
    rcases mem_cons.mp hbranch with rfl | hbranch
    · obtain ⟨first, second, hfirst, hsecond, rfl⟩ := Value.items_of_add hsum hitems
      rcases mem_append.mp hb with hb | hb
      · exact hchild hbody hfirst hb
      · exact hchild horelse hsecond hb
    · obtain ⟨h, hh, rfl⟩ := mem_map.mp hbranch
      cases hitems
      obtain rfl := mem_singleton.mp hb
      exact hchild hheld hhandlers hh
  split at hf
  · rename_i hkind
    obtain ⟨body, hbody, hf⟩ := bind_eq_ok.mp hf
    cases hf
    obtain rfl := mem_singleton.mp hbranch
    exact ⟨hchild hbody hitems hb, by simp [hkind.1]⟩
  · cases hf
    cases hbranch

end Forks

namespace State

/-- Whether just one of the two nodes is on one of the branches below `a`. -/
def parted (s : State) (cfg : Setup) (a l r : Node) : Except Fault Bool := do
  (← forks cfg.dialect a).anyM fun branch => do
    let items ← branch.items
    return s.onBranch cfg.root a l items != s.onBranch cfg.root a r items

variable (hnum : cfg.Numbered next) (hs : s.Charted cfg)

include hnum hs

/-- Nothing but where the climbs meet depends on the node where they are told to stop. -/
theorem differentForks_over (htop : Placed cfg top) (hl : Above cfg top l)
    (hr : Above cfg top r) (hlseen : s.Seen cfg l.node) (hrseen : s.Seen cfg r.node) {main : Node}
    (hmeet : s.commonAncestor main l.node r.node = some top.node) :
    s.differentForks (cfg.over main) l.node r.node = s.parted cfg top.node l.node r.node := by
  have hmeet : s.commonAncestor (cfg.over main).root l.node r.node = some top.node := hmeet
  simp only [differentForks, parted, hmeet]
  have hdialect : (cfg.over main).dialect = cfg.dialect := rfl
  rw [hdialect]
  cases hf : forks cfg.dialect top.node with
  | error e => rfl
  | ok branches =>
    rw [ok_bind, ok_bind]
    refine anyM_congr (forall₂_same.mpr fun branch hbranch => ?_)
    cases hitems : branch.items with
    | error e => rfl
    | ok items =>
      have hsteps (b : Node) (hb : .node b ∈ items) : top.below b ∈ top.steps cfg := by
        obtain ⟨hchild, hkind⟩ := mem_children_of_forks hf hbranch hitems hb
        refine mem_steps.mpr (.inl ⟨b, ?_, rfl⟩)
        unfold Setup.handedAt
        split
        · exact mem_map_of_mem hchild
        · exact NodeOf.mem_handed_of_kind (htop.distinct hnum.distinct) hchild hkind
      rw [ok_bind, ok_bind, onFork, descendantOf_eq hnum hs htop hl hlseen hsteps,
        descendantOf_eq hnum hs htop hr hrseen hsteps]

theorem differentForks_eq (htop : Placed cfg top) (hl : Above cfg top l)
    (hr : Above cfg top r) (hlseen : s.Seen cfg l.node) (hrseen : s.Seen cfg r.node)
    (hmeet : s.commonAncestor cfg.root l.node r.node = some top.node) :
    s.differentForks cfg l.node r.node = s.parted cfg top.node l.node r.node :=
  differentForks_over hnum hs htop hl hr hlseen hrseen hmeet

end State

namespace Check

/-- At every moment of a run over a tree without shared nodes, the climbs from two visited nodes meet
at the lowest visited node above both if there are as many bodies of functions around the one as
around the other, and else at the root. By that node, the two are told to be on different branches
if one of them is on a branch below it without further bodies around it and the other is not. -/
theorem commonAncestor_reached (cfg : Setup) (stop : Moment → State → Bool) (next : Nat)
    (hnum : cfg.Numbered next) (l r : Node) (hl : l ∈ cfg.root.nodes) (hr : r ∈ cfg.root.nodes)
    (hlmark : ((reached cfg stop next).mark? l).isSome = true)
    (hrmark : ((reached cfg stop next).mark? r).isSome = true) :
    let s := reached cfg stop next
    ∃ a, s.LowestCommon cfg l r a ∧
      let met := if s.bodiesAround cfg.root l = s.bodiesAround cfg.root r then a else cfg.root
      s.commonAncestor cfg.root l r = some met ∧ s.differentForks cfg l r = s.parted cfg met l r := by
  have hs := charted_reached hnum stop
  have htop : Placed cfg cfg.rootSpot := .refl
  obtain ⟨x, hx, rfl⟩ := hs.exists_spot hnum hl (.inr hlmark)
  obtain ⟨y, hy, rfl⟩ := hs.exists_spot hnum hr (.inr hrmark)
  obtain ⟨a, ha⟩ := exists_lowest hnum.distinct htop hx hy
  refine ⟨a.node, State.lowestCommon_of_lowest hnum hs ha (.inr hlmark), ?_⟩
  have hmeet := State.commonAncestor_eq hnum hs htop hx hy (.inr hlmark) (.inr hrmark) ha
  rw [State.bodiesAround_eq hnum hs hx (.inr hlmark), State.bodiesAround_eq hnum hs hy (.inr hrmark)]
  refine ⟨hmeet, ?_⟩
  split
  · rw [if_pos ‹_›] at hmeet
    exact State.differentForks_eq hnum hs ha.placed ha.left ha.right (.inr hlmark) (.inr hrmark) hmeet
  · rw [if_neg ‹_›] at hmeet
    exact State.differentForks_eq hnum hs htop hx hy (.inr hlmark) (.inr hrmark) hmeet

end Check

namespace Sample

def importName (line : Int) (name : String) : Value :=
  .node ⟨0, "Import", some (.of line 0), [("names", .list [
    .node ⟨0, "alias", none, [("name", .text name), ("asname", .null)]⟩])]⟩

/-- In a function, `a` is imported on both branches of a condition: the nodes 6 and 8 below 3. -/
def branches : Setup :=
  setup [function 1 "f" [.node ⟨0, "If", some (.of 2 0), [("test", name 2 "f" "Load"),
    ("body", .list [importName 3 "a"]), ("orelse", .list [importName 5 "a"])]⟩]]

/-- `a` is imported in a `try`, and in a function on the other branch: the nodes 2 and 9 below 1. -/
def fallback : Setup :=
  setup [.node ⟨0, "Try", some (.of 1 0), [("body", .list [importName 2 "a"]), ("handlers", .list [
    .node ⟨0, "ExceptHandler", some (.of 3 0), [("type", name 3 "ImportError" "Load"),
      ("name", .null), ("body", .list [function 4 "f" [importName 5 "a",
        .node ⟨0, "Return", some (.of 6 0), [("value", name 6 "a" "Load")]⟩]])]⟩]),
    ("orelse", .list []), ("finalbody", .list [])]⟩]

def nodeOf (cfg : Setup) (id : Nat) : Node := (cfg.root.nodes.find? (·.id == id)).getD cfg.root

theorem nodeOf_mem (cfg : Setup) (id : Nat) : nodeOf cfg id ∈ cfg.root.nodes := by
  unfold nodeOf
  cases h : cfg.root.nodes.find? (·.id == id) with
  | none => exact NodeOf.self_mem_nodes _
  | some n => exact mem_of_find?_eq_some h

end Sample

namespace Check

open Sample

/-- Two imports on the branches of a condition, in the body of one function. -/
theorem commonAncestor_reached_branches :
    ∃ a, (final branches).LowestCommon branches (nodeOf branches 6) (nodeOf branches 8) a ∧
      a.id = 3 ∧
      (final branches).commonAncestor branches.root (nodeOf branches 6) (nodeOf branches 8) =
        some a ∧
      ((final branches).differentForks branches (nodeOf branches 6)
        (nodeOf branches 8)).toOption = some true := by
  have hnum : branches.Numbered branches.root.size := ⟨by decide +kernel, by decide +kernel⟩
  obtain ⟨a, ha, hmeet, -⟩ := commonAncestor_reached branches (fun _ _ => false)
    branches.root.size hnum (nodeOf branches 6) (nodeOf branches 8) (nodeOf_mem _ _)
    (nodeOf_mem _ _) (by decide +kernel) (by decide +kernel)
  have hbodies : (final branches).bodiesAround branches.root (nodeOf branches 6) =
      (final branches).bodiesAround branches.root (nodeOf branches 8) := by decide +kernel
  have hid : ((final branches).commonAncestor branches.root (nodeOf branches 6)
      (nodeOf branches 8)).map (·.id) = some 3 := by decide +kernel
  have hmeet : (final branches).commonAncestor branches.root (nodeOf branches 6)
      (nodeOf branches 8) = some a := hmeet.trans (congrArg some (if_pos hbodies))
  rw [hmeet] at hid
  exact ⟨a, ha, Option.some.inj hid, hmeet, by decide +kernel⟩

/-- One import in a `try`, and one in a function on the other branch: both are below the node 1, but
the climbs meet at the root, and the second import is reported. -/
theorem commonAncestor_of_fallback :
    ((final fallback).mark? (nodeOf fallback 2)).isSome = true ∧
      ((final fallback).mark? (nodeOf fallback 9)).isSome = true ∧
      ((final fallback).mark? (nodeOf fallback 1)).isSome = true ∧
      [2, 9].all ((nodeOf fallback 1).nodes.map (·.id)).contains = true ∧
      ((final fallback).commonAncestor fallback.root (nodeOf fallback 2)
        (nodeOf fallback 9)).map (·.id) = some 0 ∧
      (final fallback).messages.toList.map (·.text) =
        ["(none):5: redefinition of 'a' from line 2"] := by
  decide +kernel

end Check

end ScopeLint
