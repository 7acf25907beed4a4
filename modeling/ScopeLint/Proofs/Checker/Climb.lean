import ScopeLint.Proofs.Checker.Chart

/-! # Climbs to a common ancestor

To find the lowest node above two nodes, the deeper one climbs. Levels start anew in every body that
is put off, so the climbs keep step with each other only from within the same number of bodies;
otherwise they miss each other and end where they are told to stop. -/
namespace ScopeLint

open Spot

variable {cfg : Setup} {a l r p : Spot}

namespace Spot

variable {x y : Spot}

/-- A step goes one level down, or into a body, where levels start anew. -/
theorem level_of_mem_steps (h : y ∈ x.steps cfg) :
    (y.level = x.level + 1 ∧ y.bodies = x.bodies) ∨ (y.level = 1 ∧ y.bodies = x.bodies + 1) := by
  rcases mem_steps.mp h with ⟨m, -, rfl⟩ | ⟨m, -, rfl⟩
  · exact .inl ⟨rfl, rfl⟩
  · exact .inr ⟨rfl, rfl⟩

theorem Placed.eq_root_of_level (h : Placed cfg x) (hlevel : x.level = 0) : x = cfg.rootSpot := by
  rcases h.cases_tail with rfl | ⟨w, -, hx⟩
  · rfl
  · exact absurd hlevel (Nat.ne_of_gt (level_pos_of_mem_steps hx))

/-- Only the root is at level zero, and nothing else is above it. -/
theorem Above.eq_of_level (hroot : cfg.root.Distinct) (hx : Placed cfg x) (h : Above cfg x y)
    (hlevel : y.level = 0) : y = x := by
  have hy : Placed cfg y := hx.trans h
  obtain rfl := hy.eq_root_of_level hlevel
  exact Above.antisymm (x := cfg.rootSpot) hroot hx h

theorem Above.exists_before (h : Above cfg x y) (hne : y ≠ x) :
    ∃ w, Above cfg x w ∧ y ∈ w.steps cfg := by
  rcases h.cases_tail with rfl | ⟨w, hw, hy⟩
  · exact absurd rfl hne
  · exact ⟨w, hw, hy⟩

theorem length_ancestors_of_mem_steps (h : y ∈ x.steps cfg) :
    y.ancestors.length = x.ancestors.length + 1 := by
  rw [ancestors_of_mem_steps h, lineage, List.length_cons]

theorem length_ancestors_le (l r : Spot) :
    l.ancestors.length + r.ancestors.length ≤ l.lineage.length + r.lineage.length := by
  simp only [lineage, List.length_cons]
  omega

theorem Above.eq_of_ancestors (h : Above cfg x y) (hlength : y.ancestors.length = 0) : y = x := by
  by_contra hne
  obtain ⟨w, -, hy⟩ := h.exists_before hne
  rw [length_ancestors_of_mem_steps hy] at hlength
  omega

theorem Placed.bodies_of_level (h : Placed cfg x) (hlevel : x.level = 0) : x.bodies = 0 := by
  rw [h.eq_root_of_level hlevel]
  rfl

theorem Placed.level_pos_of_bodies (h : Placed cfg x) (hy : y ∈ x.steps cfg)
    (hbodies : y.bodies = x.bodies + 1) : 0 < x.level := by
  by_contra hlevel
  obtain rfl := h.eq_root_of_level (by omega)
  rcases mem_steps.mp hy with ⟨m, -, rfl⟩ | ⟨m, hm, -⟩
  · exact absurd hbodies (Nat.ne_of_lt (Nat.lt_succ_self _))
  · simp [Setup.deferredAt, Setup.rootSpot] at hm

theorem Lowest.symm (h : Lowest cfg a l r) : Lowest cfg a r l :=
  ⟨h.placed, h.right, h.left, fun w hw hr hl => h.above w hw hl hr⟩

/-- The place before one of the two has the same lowest place in common with the other, unless the
lowest place was reached. -/
theorem Lowest.climb (hroot : cfg.root.Distinct) (h : Lowest cfg a l r) (hne : a ≠ l)
    (hp : Placed cfg p) (hlp : l ∈ p.steps cfg) : Lowest cfg a p r :=
  ⟨h.placed, h.left.above_of_steps hroot h.placed hne hp hlp, h.right,
    fun w hw hwp hwr => h.above w hw (hwp.tail hlp) hwr⟩

/-- The lowest place is not one of the two if that one is at least as deep in the same body. -/
theorem Lowest.ne_left (h : Lowest cfg a l r) (hne : l ≠ r) (hbodies : l.bodies = r.bodies)
    (hlevel : r.level ≤ l.level) : a ≠ l := by
  rintro rfl
  rcases h.right.order with hlt | ⟨-, heq | hlt⟩
  · omega
  · exact hne heq
  · omega

theorem Lowest.eq_of_above (hroot : cfg.root.Distinct) (h : Lowest cfg a l r) (hx : Placed cfg x)
    (hxl : Above cfg x l) (hxr : Above cfg x r) (hax : Above cfg a x) : a = x :=
  Above.antisymm (h.placed.distinct hroot) hax (h.above x hx hxl hxr)

end Spot

namespace State

variable {s : State} {next : Nat} (hnum : cfg.Numbered next) (hs : s.Charted cfg) {top q : Spot}
  {stop : Node}

/-- What two lineages meet in is in the first one, or it is where the climb stops. -/
theorem mem_of_meetWithin {a : Node} {fuel : Nat} {ls rs : List Node}
    (h : s.meetWithin stop fuel ls rs = some a) : a = stop ∨ a ∈ ls := by
  fun_induction meetWithin s stop fuel ls rs with
  | case1 => exact .inr (by simp_all)
  | case2 => exact .inl (by simp_all)
  | case3 | case4 | case8 => cases h
  | case5 _ _ _ _ _ _ _ _ _ ih => exact (ih h).imp_right (List.mem_cons_of_mem _)
  | case6 _ _ _ _ _ _ _ _ _ _ ih => exact ih h
  | case7 _ _ _ _ _ _ _ _ _ _ ih => exact (ih h).imp_right (List.mem_cons_of_mem _)

theorem meetWithin_self (s : State) (stop : Node) (fuel : Nat) (l : Spot) :
    s.meetWithin stop fuel l.lineage l.lineage = some l.node := by
  cases fuel <;> simp [Spot.lineage, meetWithin]

include hnum

theorem ne_id_of_ne (hl : Placed cfg l) (hr : Placed cfg r) (hne : l ≠ r) :
    l.node.id ≠ r.node.id :=
  fun hid => hne (Above.unique (x := cfg.rootSpot) hnum.distinct hl hr hid)

theorem meetWithin_of_eq_top (htop : Placed cfg top) (hl : Placed cfg l)
    (hr : Placed cfg r) (h : l = top ∨ r = top) (fuel : Nat) :
    s.meetWithin top.node fuel l.lineage r.lineage = some top.node := by
  by_cases hne : l = r
  · have heq : l = top := h.elim id fun hr => hne.trans hr
    rw [← hne, heq]
    exact meetWithin_self s _ _ _
  · have hids := ne_id_of_ne hnum hl hr hne
    have hstop : top.node.id = l.node.id ∨ top.node.id = r.node.id := by
      rcases h with rfl | rfl
      · exact .inl rfl
      · exact .inr rfl
    cases fuel <;> simp [Spot.lineage, meetWithin, hids, hstop]

include hs

theorem exists_rise (htop : Placed cfg top) (hl : Above cfg top l)
    (hseen : s.Seen cfg l.node) (hne : l ≠ top) :
    ∃ p, Above cfg top p ∧ l ∈ p.steps cfg ∧ s.Seen cfg p.node ∧
      l.ancestors.length = p.ancestors.length + 1 ∧
      ((l.level = p.level + 1 ∧ l.bodies = p.bodies) ∨
        (l.level = 1 ∧ l.bodies = p.bodies + 1)) := by
  obtain ⟨p, hp, hlp⟩ := hl.exists_before hne
  exact ⟨p, hp, hlp, hs.seen_of_steps hnum (htop.trans hp) hlp hseen,
    length_ancestors_of_mem_steps hlp, level_of_mem_steps hlp⟩

/-- Before the climbs meet or come to where they stop, the deeper node climbs, or both. -/
theorem meetWithin_step (hl : l ≠ r) (hlstop : stop.id ≠ l.node.id) (hrstop : stop.id ≠ r.node.id)
    (hp : Placed cfg p) (hq : Placed cfg q) (hlp : l ∈ p.steps cfg)
    (hrq : r ∈ q.steps cfg) (hlseen : s.Seen cfg l.node) (hrseen : s.Seen cfg r.node) (fuel : Nat) :
    s.meetWithin stop (fuel + 1) l.lineage r.lineage =
      if r.level < l.level then s.meetWithin stop fuel p.lineage r.lineage
      else if l.level < r.level then s.meetWithin stop fuel l.lineage q.lineage
      else s.meetWithin stop fuel p.lineage q.lineage := by
  have hplaced : Placed cfg l := hp.tail hlp
  have hrplaced : Placed cfg r := hq.tail hrq
  have hlineage : l.lineage = l.node :: p.lineage := by
    rw [Spot.lineage, ancestors_of_mem_steps hlp]
  have hrlineage : r.lineage = r.node :: q.lineage := by
    rw [Spot.lineage, ancestors_of_mem_steps hrq]
  have hids := ne_id_of_ne hnum hplaced hrplaced hl
  rw [hlineage, hrlineage, meetWithin, if_neg hids, if_neg (not_or.mpr ⟨hlstop, hrstop⟩),
    if_neg (by simp [Spot.lineage]), hs.level_eq hnum hplaced hlseen,
    hs.level_eq hnum hrplaced hrseen]

/-- From within different numbers of bodies the climbs miss each other. -/
theorem meetWithin_apart (htop : Placed cfg top) (fuel : Nat) (hl : Above cfg top l)
    (hr : Above cfg top r) (hlseen : s.Seen cfg l.node) (hrseen : s.Seen cfg r.node)
    (hbodies : l.bodies ≠ r.bodies ∨ l = top ∨ r = top)
    (hfuel : l.ancestors.length + r.ancestors.length ≤ fuel) :
    s.meetWithin top.node fuel l.lineage r.lineage = some top.node := by
  induction fuel generalizing l r with
  | zero =>
    have hltop : l = top := hl.eq_of_ancestors (by omega)
    exact meetWithin_of_eq_top hnum htop (htop.trans hl) (htop.trans hr) (.inl hltop) 0
  | succ fuel ih =>
    by_cases htops : l = top ∨ r = top
    · exact meetWithin_of_eq_top hnum htop (htop.trans hl) (htop.trans hr) htops _
    have hbodies : l.bodies ≠ r.bodies := hbodies.resolve_right htops
    rw [not_or] at htops
    obtain ⟨p, hp, hlp, hpseen, hllength, hlstep⟩ := exists_rise hnum hs htop hl hlseen htops.1
    obtain ⟨q, hq, hrq, hqseen, hrlength, hrstep⟩ := exists_rise hnum hs htop hr hrseen htops.2
    have hpplaced : Placed cfg p := htop.trans hp
    have hqplaced : Placed cfg q := htop.trans hq
    rw [meetWithin_step hnum hs (fun h => hbodies (congrArg _ h))
      (ne_id_of_ne hnum htop (htop.trans hl) (Ne.symm htops.1))
      (ne_id_of_ne hnum htop (htop.trans hr) (Ne.symm htops.2)) hpplaced hqplaced hlp hrq hlseen
      hrseen]
    split
    · exact ih hp hr hpseen hrseen (.inl (by omega)) (by omega)
    split
    · exact ih hl hq hlseen hqseen (.inl (by omega)) (by omega)
    · refine ih hp hq hpseen hqseen ?_ (by omega)
      rcases hlstep with hlbelow | hlbody <;> rcases hrstep with hrbelow | hrbody
      · exact .inl (by omega)
      · exact .inr (.inl (hp.eq_of_level hnum.distinct htop (by omega)))
      · exact .inr (.inr (hq.eq_of_level hnum.distinct htop (by omega)))
      · exact .inl (by omega)

omit hs in
theorem meetWithin_lowest_of_eq_top (htop : Placed cfg top) (hl : Above cfg top l)
    (hr : Above cfg top r) (ha : Lowest cfg a l r) (h : l = top ∨ r = top) (fuel : Nat) :
    s.meetWithin top.node fuel l.lineage r.lineage = some a.node := by
  have hatop : a = top := by
    refine ha.eq_of_above hnum.distinct htop hl hr ?_
    rcases h with rfl | rfl
    · exact ha.left
    · exact ha.right
  rw [hatop]
  exact meetWithin_of_eq_top hnum htop (htop.trans hl) (htop.trans hr) h fuel

/-- From within the same number of bodies the climbs meet at the lowest place in common, also if they
are told to stop at a node that is not of the tree. -/
theorem meetWithin_same (htop : Placed cfg top)
    (hstop : ∀ x, Above cfg top x → x ≠ top → stop.id ≠ x.node.id) (fuel : Nat)
    (hl : Above cfg top l) (hr : Above cfg top r) (hlseen : s.Seen cfg l.node)
    (hrseen : s.Seen cfg r.node) (hbodies : l.bodies = r.bodies) (ha : Lowest cfg a l r)
    (hends : stop = top.node ∨ (top = cfg.rootSpot ∧ (l.level = 0 ↔ r.level = 0)))
    (hfuel : l.ancestors.length + r.ancestors.length ≤ fuel) :
    s.meetWithin stop fuel l.lineage r.lineage = some a.node := by
  induction fuel generalizing l r with
  | zero =>
    have hltop : l = top := hl.eq_of_ancestors (by omega)
    have hrtop : r = top := hr.eq_of_ancestors (by omega)
    rw [hltop, hrtop] at ha ⊢
    rw [ha.eq_of_above hnum.distinct htop .refl .refl ha.left]
    exact meetWithin_self s _ _ _
  | succ fuel ih =>
    by_cases hne : l = r
    · subst hne
      rw [ha.eq_of_above hnum.distinct (htop.trans hl) .refl .refl ha.left]
      exact meetWithin_self s _ _ _
    have htops : (l = top ∨ r = top) → stop = top.node := by
      refine fun h => hends.resolve_right ?_
      rintro ⟨rfl, hzero⟩
      -- If one of the two is the root, then the other is as well.
      refine hne ?_
      rcases h with rfl | rfl
      · exact (Placed.eq_root_of_level hr (hzero.mp rfl)).symm
      · exact Placed.eq_root_of_level hl (hzero.mpr rfl)
    by_cases hend : l = top ∨ r = top
    · rw [htops hend]
      exact meetWithin_lowest_of_eq_top hnum htop hl hr ha hend _
    rw [not_or] at hend
    obtain ⟨p, hp, hlp, hpseen, hllength, hlstep⟩ := exists_rise hnum hs htop hl hlseen hend.1
    obtain ⟨q, hq, hrq, hqseen, hrlength, hrstep⟩ := exists_rise hnum hs htop hr hrseen hend.2
    have hpplaced : Placed cfg p := htop.trans hp
    have hqplaced : Placed cfg q := htop.trans hq
    have hlpos := level_pos_of_mem_steps hlp
    have hrpos := level_pos_of_mem_steps hrq
    rw [meetWithin_step hnum hs hne (hstop l hl hend.1) (hstop r hr hend.2) hpplaced hqplaced hlp hrq
      hlseen hrseen]
    split
    · have hal : a ≠ l := ha.ne_left hne hbodies (by omega)
      exact ih hp hr hpseen hrseen (by omega) (ha.climb hnum.distinct hal hpplaced hlp)
        (hends.imp_right fun h => ⟨h.1, by omega⟩) (by omega)
    split
    · have har : a ≠ r := ha.symm.ne_left (Ne.symm hne) hbodies.symm (by omega)
      exact ih hl hq hlseen hqseen (by omega) (ha.symm.climb hnum.distinct har hqplaced hrq).symm
        (hends.imp_right fun h => ⟨h.1, by omega⟩) (by omega)
    · have hal : a ≠ l := ha.ne_left hne hbodies (by omega)
      have har : a ≠ r := ha.symm.ne_left (Ne.symm hne) hbodies.symm (by omega)
      have hclimb := ha.climb hnum.distinct hal hpplaced hlp
      -- At level one, both are below the root or both begin a body.
      have hpzero := hpplaced.bodies_of_level
      have hqzero := hqplaced.bodies_of_level
      have hppos := hpplaced.level_pos_of_bodies hlp
      have hqpos := hqplaced.level_pos_of_bodies hrq
      have hsame : p.bodies = q.bodies ∧ (p.level = 0 ↔ q.level = 0) := by
        rcases hlstep with hlbelow | hlbody <;> rcases hrstep with hrbelow | hrbody <;> omega
      exact ih hp hq hpseen hqseen hsame.1 (hclimb.symm.climb hnum.distinct har hqplaced hrq).symm
        (hends.imp_right fun h => ⟨h.1, hsame.2⟩) (by omega)

/-- What the climbs from two places below `top` come to. -/
theorem commonAncestor_eq (htop : Placed cfg top) (hl : Above cfg top l)
    (hr : Above cfg top r) (hlseen : s.Seen cfg l.node) (hrseen : s.Seen cfg r.node)
    (ha : Lowest cfg a l r) : s.commonAncestor top.node l.node r.node =
      some (if l.bodies = r.bodies then a.node else top.node) := by
  have hfuel := l.length_ancestors_le r
  have hstop (x : Spot) (hx : Above cfg top x) (hne : x ≠ top) : top.node.id ≠ x.node.id :=
    ne_id_of_ne hnum htop (htop.trans hx) hne.symm
  simp only [commonAncestor]
  rw [hs.lineage_eq hnum (htop.trans hl) hlseen, hs.lineage_eq hnum (htop.trans hr) hrseen]
  split
  · exact meetWithin_same hnum hs htop hstop _ hl hr hlseen hrseen ‹_› ha (.inl rfl) hfuel
  · exact meetWithin_apart hnum hs htop _ hl hr hlseen hrseen (.inl ‹_›) hfuel

/-- The climbs from two visited places in one body also meet if the node where they are told to stop
is not of the tree. -/
theorem commonAncestor_of_foreign (hstop : ∀ m ∈ cfg.root.nodes, stop.id ≠ m.id)
    (hl : Placed cfg l) (hr : Placed cfg r) (hlseen : s.Seen cfg l.node)
    (hrseen : s.Seen cfg r.node) (hbodies : l.bodies = r.bodies) (hzero : l.level = 0 ↔ r.level = 0)
    (ha : Lowest cfg a l r) : s.commonAncestor stop l.node r.node = some a.node := by
  simp only [commonAncestor]
  rw [hs.lineage_eq hnum hl hlseen, hs.lineage_eq hnum hr hrseen]
  exact meetWithin_same hnum hs .refl (fun x hx _ => hstop x.node hx.node_mem) _ hl hr hlseen hrseen
    hbodies ha (.inr ⟨rfl, hzero⟩) (l.length_ancestors_le r)

end State

end ScopeLint
