import ScopeLint.Proofs.Checker.Cover
import ScopeLint.Proofs.Checker.Itinerary

/-! # What a run overlooks

In a tree of the grammar, a phrase is visited or it is in something that a rule leaves out, and not
both. -/
namespace ScopeLint

open List

section Visits

variable {cfg : Setup}

namespace Setup

variable {m : Node} {x : Site}

theorem exists_visits_of_child (hm : m ∈ cfg.root.children) : ∃ x, cfg.Visits x ∧ x.node = m := by
  refine ⟨⟨.module, cfg.root, m⟩, .start ?_, rfl⟩
  refine mem_filterMap.mpr ⟨(none, .node m), ?_, rfl⟩
  exact mem_map_of_mem (mem_map_of_mem hm)

theorem Visits.exists_of_visited {z : Site} (hz : cfg.Visits z)
    (hm : .node m ∈ z.node.visited cfg.dialect) : ∃ x, cfg.Visits x ∧ x.node = m := by
  rcases mem_append.mp hm with hm | hm
  · obtain ⟨⟨kind, v⟩, hleg, rfl⟩ := mem_map.mp hm
    exact ⟨⟨kind.getD z.scope, z.node, m⟩, .next hz (mem_filterMap.mpr ⟨_, hleg, rfl⟩), rfl⟩
  · split at hm
    · rename_i hfunction
      refine ⟨⟨.function, z.node, m⟩, .later hz ?_, rfl⟩
      rw [Site.laters, hfunction]
      exact mem_filterMap.mpr ⟨(none, .node m), mem_map_of_mem hm, rfl⟩
    · cases hm

/-- Induction along the way to a site that is visited. -/
theorem Visits.site_induction {motive : Site → Prop}
    (child : ∀ y, y.parent = cfg.root → y.node ∈ cfg.root.children → motive y)
    (below : ∀ z, cfg.Visits z → motive z → ∀ y, y.parent = z.node →
      .node y.node ∈ z.node.visited cfg.dialect → motive y) (hx : cfg.Visits x) : motive x := by
  induction hx with
  | start hmem =>
    obtain ⟨leg, hleg, hsite⟩ := mem_filterMap.mp hmem
    obtain ⟨-, hparent, hnode⟩ := Site.ofLeg?_eq_some.mp hsite
    obtain ⟨v, hv, rfl⟩ := mem_map.mp hleg
    obtain ⟨m, hm, rfl⟩ := mem_map.mp hv
    cases hnode
    exact child _ hparent hm
  | @next z y hz hmem ih =>
    obtain ⟨leg, hleg, hsite⟩ := mem_filterMap.mp hmem
    obtain ⟨-, hparent, hnode⟩ := Site.ofLeg?_eq_some.mp hsite
    exact below z hz ih _ hparent (mem_append_left _ (mem_map.mpr ⟨leg, hleg, hnode⟩))
  | @later z y hz hmem ih =>
    rw [Site.laters] at hmem
    split at hmem
    · rename_i hfunction
      obtain ⟨leg, hleg, hsite⟩ := mem_filterMap.mp hmem
      obtain ⟨-, hparent, hnode⟩ := Site.ofLeg?_eq_some.mp hsite
      obtain ⟨v, hv, rfl⟩ := mem_map.mp hleg
      cases hnode
      refine below z hz ih _ hparent (mem_append_right _ ?_)
      rwa [hfunction]
    · cases hmem

theorem Visits.mem_nodes (hx : cfg.Visits x) : x.node ∈ cfg.root.nodes := by
  refine hx.site_induction (motive := (·.node ∈ cfg.root.nodes)) ?_ ?_
  · exact fun y _ hy => NodeOf.mem_nodes_of_mem_children hy
  · intro z _ hz y _ hy
    refine (NodeOf.sublist_of_mem_nodes cfg.root hz).subset ?_
    rw [z.node.nodes_eq]
    exact mem_cons_of_mem _ (NodeOf.nodes_subset_of_regions (mem_append_left _ hy)
      y.node.self_mem_nodes)

theorem Visits.parent_mem (hx : cfg.Visits x) : x.parent ∈ cfg.root.nodes := by
  refine hx.site_induction (motive := (·.parent ∈ cfg.root.nodes)) ?_ ?_
  · exact fun y hparent _ => hparent ▸ cfg.root.self_mem_nodes
  · exact fun z hz _ y hparent _ => hparent ▸ hz.mem_nodes

/-- A node is visited from the node that it is a child of, or from a function. -/
theorem Visits.mem_children (hx : cfg.Visits x) :
    x.parent.isFunction = false → x.node ∈ x.parent.children := by
  refine hx.site_induction (motive := fun y => y.parent.isFunction = false →
    y.node ∈ y.parent.children) ?_ ?_
  · exact fun y hparent hy _ => hparent ▸ hy
  · intro z _ _ y hparent hy hfunction
    rw [hparent] at hfunction ⊢
    exact NodeOf.mem_children_of_visited hfunction hy

end Setup

variable (hroot : cfg.root.Conforms cfg.dialect) (hdistinct : cfg.root.Distinct) {x : Node}

include hroot in
theorem Setup.Visits.isWhole {x : Site} (hx : cfg.Visits x) : x.node.IsWhole cfg.dialect :=
  hroot.whole.part hx.mem_nodes

include hroot in
theorem Setup.Visits.exists_rule {x : Site} (hx : cfg.Visits x) :
    ∃ rule, Rule.of? x.node.kind = some rule := by
  refine hx.site_induction (motive := fun y => ∃ rule, Rule.of? y.node.kind = some rule) ?_ ?_
  · intro y _ hy
    have htable : ∀ d : Dialect, ∀ p ∈ d.grammar, p.category = .module →
        ∀ f ∈ p.fields, f.content.isVisited = true := by
      decide
    obtain ⟨p, hp⟩ := NodeOf.exists_madeBy hroot.whole.formed
    obtain ⟨f, hf, -, -, -, -, category, hcontent, hcategory⟩ := hp.child hy
    have hvisited := htable _ p hp.mem (hp.category_eq hroot.module) f hf
    rw [hcontent] at hvisited
    exact NodeOf.exists_rule_of_category hcategory hvisited
  · rintro z hz - y - hy
    obtain ⟨category, hcategory, hvisited⟩ := NodeOf.category_of_visited (hz.isWhole hroot) hy
    exact NodeOf.exists_rule_of_category hcategory hvisited

include hroot hdistinct in
/-- A phrase in a node that is visited is in a region of the node, unless it is the node itself. -/
theorem Setup.Visits.exists_region {z : Site} (hz : cfg.Visits z)
    (hx : x.isPhrase cfg.dialect = true) (hmem : x ∈ z.node.below) :
    ∃ m, .node m ∈ z.node.regions cfg.dialect ∧ x ∈ m.nodes := by
  obtain ⟨rule, hrule⟩ := hz.exists_rule hroot
  exact NodeOf.exists_part_of_isPhrase (hdistinct.part hz.mem_nodes) (hz.isWhole hroot) hrule hmem hx

/-- A phrase of the tree is in a child of its root. -/
theorem NodeOf.Conforms.exists_child {d : Dialect} {root : Node} (hroot : root.Conforms d)
    (hx : x.isPhrase d = true) (hmem : x ∈ root.nodes) : ∃ m ∈ root.children, x ∈ m.nodes := by
  obtain ⟨p, hp⟩ := NodeOf.exists_madeBy hroot.whole.formed
  exact hp.exists_child (mem_below_of_isPhrase hx hmem hroot.module (by decide) (by decide))

/-- A phrase is overlooked if it is in what a rule leaves out. -/
def Setup.Overlooks (cfg : Setup) (x : Node) : Prop :=
  ∃ k ∈ cfg.root.nodes, ∃ v ∈ k.overlooked cfg.dialect, x ∈ v.nodes

include hroot hdistinct in
/-- A phrase that is not overlooked is visited. -/
theorem Setup.exists_visits_of_phrase (hx : x.isPhrase cfg.dialect = true)
    (hmem : x ∈ cfg.root.nodes) (hnot : ¬ cfg.Overlooks x) : ∃ y, cfg.Visits y ∧ y.node = x := by
  -- down from a node that is visited, to smaller and smaller parts of the tree
  have hdown (size : Nat) : ∀ z, cfg.Visits z → x ∈ z.node.nodes → z.node.nodes.length ≤ size →
      ∃ y, cfg.Visits y ∧ y.node = x := by
    induction size with
    | zero =>
      intro z _ hxz hle
      rw [Nat.le_zero, length_eq_zero_iff] at hle
      rw [hle] at hxz
      cases hxz
    | succ size ih =>
      intro z hz hxz hle
      rw [z.node.nodes_eq] at hxz
      rcases mem_cons.mp hxz with rfl | hbelow
      · exact ⟨z, hz, rfl⟩
      · obtain ⟨m, hm, hxm⟩ := hz.exists_region hroot hdistinct hx hbelow
        rcases mem_append.mp hm with hvisited | hover
        · obtain ⟨y, hy, rfl⟩ := hz.exists_of_visited hvisited
          have hlt : y.node.nodes.length < z.node.nodes.length := NodeOf.length_lt_of_regions hm
          exact ih y hy hxm (by omega)
        · exact absurd ⟨z.node, hz.mem_nodes, _, hover, hxm⟩ hnot
  obtain ⟨m, hm, hxm⟩ := hroot.exists_child hx hmem
  obtain ⟨z, hz, rfl⟩ := Setup.exists_visits_of_child hm
  exact hdown _ z hz hxm le_rfl

theorem NodeOf.isPhrase_of_overlooked {d : Dialect} {k : Node} (hk : k.isFormed d = true) {v : Value}
    (hv : v ∈ k.overlooked d) : k.isPhrase d = true := by
  obtain ⟨p, hp⟩ := NodeOf.exists_madeBy hk
  have hphrase {rule : Rule} (hrule : Rule.of? k.kind = some rule) (hown : rule.fields ≠ [])
      (htable : ∀ d : Dialect, ∀ p ∈ d.grammar, p.fields = rule.fields →
        p.category = .statement ∨ p.category = .expression) : k.isPhrase d = true := by
    rcases htable d p hp.mem (hp.fields_eq hrule hown) with hcategory | hcategory <;>
      simp [NodeOf.isPhrase, hp.categoryOf_eq, hcategory]
  unfold NodeOf.overlooked at hv
  split at hv
  · exact hphrase ‹_› (by decide) (by decide)
  · exact hphrase ‹_› (by decide) (by decide)
  · exact hphrase ‹_› (by decide) (by decide)
  · cases hv

include hroot hdistinct in
/-- What is visited is not overlooked. -/
theorem Setup.Visits.not_overlooks {y : Site} (hy : cfg.Visits y) : ¬ cfg.Overlooks y.node := by
  rintro ⟨k, hk, v, hv, hxv⟩
  have hphrase := NodeOf.isPhrase_of_overlooked (hroot.formed k hk) hv
  have hxk : y.node ∈ k.nodes := by
    rw [k.nodes_eq]
    exact mem_cons_of_mem _ ((k.flatMap_regions_subperm cfg.dialect).subset
      (mem_flatMap.mpr ⟨v, mem_append_right _ hv, hxv⟩))
  have hin {m : Node} (hkm : k ∈ m.nodes) : y.node ∈ m.nodes :=
    (NodeOf.sublist_of_mem_nodes m hkm).subset hxk
  -- every node on the way down to the visited one has the other in it
  have hway : y.node ∈ y.node.nodes → k ∈ y.node.nodes := by
    refine hy.site_induction (motive := fun z => y.node ∈ z.node.nodes → k ∈ z.node.nodes) ?_ ?_
    · intro z _ hz hxz
      obtain ⟨c, hc, hkc⟩ := hroot.exists_child hphrase hk
      rw [hdistinct.eq_of_subperm cfg.root.flatMap_children_subperm (mem_map_of_mem hz)
        (mem_map_of_mem hc) hxz (hin hkc)]
      exact hkc
    · intro z hz ih w _ hm hxm
      have hzdistinct := hdistinct.part hz.mem_nodes
      have hbelow := NodeOf.nodes_subset_of_regions (mem_append_left _ hm) hxm
      have hkz := ih (by rw [z.node.nodes_eq]; exact mem_cons_of_mem _ hbelow)
      rw [z.node.nodes_eq] at hkz
      rcases mem_cons.mp hkz with rfl | hkz
      · exact absurd hxv (hzdistinct.not_mem_overlooked hm hxm hv)
      · obtain ⟨c, hc, hkc⟩ := hz.exists_region hroot hdistinct hphrase hkz
        rw [hzdistinct.eq_of_subperm (z.node.flatMap_regions_subperm cfg.dialect)
          (mem_append_left _ hm) hc hxm (hin hkc)]
        exact hkc
  have hupper := (NodeOf.sublist_of_mem_nodes y.node (hway y.node.self_mem_nodes)).length_le
  have hlower := (Value.sublist_of_mem_nodes v hxv).length_le
  have hlt := NodeOf.length_lt_of_regions (mem_append_right (k.visited cfg.dialect) hv)
  omega

end Visits

end ScopeLint
