import ScopeLint.Proofs.Checker.Course
import ScopeLint.Proofs.Checker.Parts

/-! # A visit is never cut short

What a node hands on to visits is smaller than the node, so the bound on the nesting of a visit plays
no part: a visit applies the rule for its node with the visit itself for what is below. -/
namespace ScopeLint

open List

variable {v w : Value} {name : String} {n : Node}

namespace Value

variable {items : List Value}

theorem one_le_size (v : Value) : 1 ≤ v.size := by
  cases v with
  | node n =>
    obtain ⟨id, kind, position, fields⟩ := n
    simp [size, NodeOf.size]
  | _ => simp [size]

theorem size_lt_of_mem_fields {fields : List (String × Value)} {f : String × Value}
    (h : f ∈ fields) : f.2.size < sizeFields fields + 1 := by
  induction fields with
  | nil => cases h
  | cons g rest ih =>
    rw [sizeFields]
    rcases mem_cons.mp h with rfl | hrest
    · rw [sizeField]
      omega
    · have hlt := ih hrest
      omega

theorem size_lt_of_mem_items (h : v ∈ items) : v.size < sizeItems items + 1 := by
  induction items with
  | nil => cases h
  | cons w rest ih =>
    rw [sizeItems]
    rcases mem_cons.mp h with rfl | hrest
    · omega
    · have hlt := ih hrest
      omega

theorem size_le_of_items (h : v.items = .ok items) (hw : w ∈ items) : w.size ≤ v.size := by
  cases v with
  | list all =>
    cases h
    exact Nat.le_of_lt (size_lt_of_mem_items hw)
  | text s =>
    cases h
    obtain ⟨c, -, rfl⟩ := mem_map.mp hw
    exact Nat.le_refl _
  | _ => cases h

/-- A value that a visit of something as large as `size` may go on to. -/
def IsLess (size : Nat) (v : Value) : Prop := v.isNull = true ∨ v.size < size

theorem IsLess.mono {size more : Nat} (h : v.IsLess size) (hle : size ≤ more) : v.IsLess more :=
  h.imp_right fun hlt => Nat.lt_of_lt_of_le hlt hle

end Value

namespace NodeOf

theorem size_eq (n : Node) : n.size = Value.sizeFields n.fields + 1 := by
  obtain ⟨id, kind, position, fields⟩ := n
  rw [size]

theorem isLess_of_get (h : n.get name = .ok v) :
    v.IsLess n.size := by
  cases hnull : v.isNull with
  | true => exact .inl hnull
  | false =>
    obtain ⟨before, after, hfields⟩ := n.exists_fields_of_get h hnull
    have hmem : (name, v) ∈ n.fields := by simp [hfields]
    rw [n.size_eq]
    exact .inr (Value.size_lt_of_mem_fields hmem)

theorem size_lt_of_mem_children {n c : Node} (h : c ∈ n.children) : c.size < n.size := by
  obtain ⟨f, hf, hc⟩ := mem_flatMap.mp h
  have hlt := Value.size_lt_of_mem_fields hf
  rw [n.size_eq]
  cases hv : f.2 with
  | node m =>
    rw [hv] at hc hlt
    obtain rfl := mem_singleton.mp hc
    exact hlt
  | list items =>
    rw [hv] at hc hlt
    obtain ⟨v, hitem, hnode⟩ := mem_filterMap.mp hc
    have hitem := Value.size_lt_of_mem_items hitem
    rw [Value.size] at hlt
    cases v with
    | node m =>
      cases hnode
      exact Nat.lt_trans hitem hlt
    | _ => cases hnode
  | _ =>
    rw [hv] at hc
    cases hc

end NodeOf

namespace Value

theorem isLess_of_get (h : v.get name = .ok w) : w.IsLess v.size := by
  cases v with
  | node n => exact NodeOf.isLess_of_get (n := n) h
  | _ => cases h

theorem isLess_of_valueIn (h : w ∈ v.valueIn name) : w.IsLess v.size := by
  cases hget : v.get name with
  | error e => simp [valueIn, hget, Except.toOption] at h
  | ok u =>
    rw [valueIn_of_get hget] at h
    obtain rfl := mem_singleton.mp h
    exact isLess_of_get hget

/-- What a loop over a field runs through is smaller than what has the field. -/
theorem isLess_of_itemsIn (h : w ∈ v.itemsIn name) : w.IsLess v.size := by
  obtain ⟨u, hu, hw⟩ := mem_flatMap.mp h
  cases hi : u.items with
  | error e => simp [hi, Except.toOption] at hw
  | ok items =>
    rw [hi] at hw
    rcases isLess_of_valueIn hu with hnull | hlt
    · cases u with
      | null => cases hi
      | _ => cases hnull
    · exact .inr (Nat.lt_of_le_of_lt (size_le_of_items hi hw) hlt)

end Value

namespace NodeOf

variable {d : Dialect}

private theorem isLess_of_nested {size : Nat} (hw : w.IsLess size) (hv : v.IsLess w.size) :
    v.IsLess size := by
  rcases hw with hnull | hlt
  · cases w with
    | null =>
      rcases hv with hv | hv
      · exact .inl hv
      · have hone := v.one_le_size
        have hsize : Value.null.size = 1 := by simp [Value.size]
        omega
    | _ => cases hnull
  · exact hv.mono (Nat.le_of_lt hlt)

theorem isLess_of_aroundParameters {args : Value} (h : v ∈ n.aroundParameters d args) :
    v.IsLess args.size := by
  have hannotated {ws : List Value} (hws : ∀ w ∈ ws, w.IsLess args.size)
      (hv : v ∈ ws.flatMap (·.valueIn "annotation")) : v.IsLess args.size := by
    obtain ⟨w, hw, hv⟩ := mem_flatMap.mp hv
    exact isLess_of_nested (hws w hw) (Value.isLess_of_valueIn hv)
  have hstarred (name : String) (hv : v ∈ annotationStarred d args name) :
      v.IsLess args.size := by
    unfold annotationStarred at hv
    split at hv
    · exact hannotated (fun w => Value.isLess_of_valueIn) hv
    · exact Value.isLess_of_valueIn hv
  rw [aroundParameters_eq, mem_append, mem_append] at h
  rcases h with (hplain | hreturns) | hdefaults
  · unfold plainAnnotations at hplain
    split at hplain
    · cases hplain
    · refine hannotated (fun w hw => ?_) hplain
      exact (mem_append.mp hw).elim Value.isLess_of_itemsIn Value.isLess_of_itemsIn
  · split at hreturns
    · rw [starredAnnotations_eq] at hreturns
      exact (mem_append.mp hreturns).elim (hstarred _) (hstarred _)
    · cases hreturns
  · unfold parameterDefaults at hdefaults
    rcases mem_append.mp hdefaults with h | h
    · exact Value.isLess_of_itemsIn h
    · split at h
      · cases h
      · exact Value.isLess_of_itemsIn h

theorem isLess_of_aroundFunction (h : v ∈ n.aroundFunction d) : v.IsLess n.size := by
  have hsize : (Value.node n).size = n.size := by rw [Value.size]
  rw [← hsize]
  rcases mem_append.mp (mem_filter.mp h).1 with h | h
  · obtain ⟨args, hargs, h⟩ := mem_flatMap.mp h
    exact isLess_of_nested (Value.isLess_of_valueIn hargs) (isLess_of_aroundParameters h)
  · exact Value.isLess_of_valueIn h

theorem isLess_of_handed (h : v ∈ n.handed d) : v.IsLess n.size := by
  have hsize : (Value.node n).size = n.size := by rw [Value.size]
  have hitems (name : String) (h : v ∈ (Value.node n).itemsIn name) : v.IsLess n.size :=
    hsize ▸ Value.isLess_of_itemsIn h
  have hvalue (name : String) (h : v ∈ (Value.node n).valueIn name) : v.IsLess n.size :=
    hsize ▸ Value.isLess_of_valueIn h
  have hchild {keep : Node → Bool} (h : v ∈ (n.children.filter keep).map .node) :
      v.IsLess n.size := by
    obtain ⟨c, hc, rfl⟩ := mem_map.mp h
    have hlt := size_lt_of_mem_children (mem_filter.mp hc).1
    exact .inr (by rwa [Value.size])
  have hchildren (h : v ∈ n.children.map .node) : v.IsLess n.size :=
    hchild (by rwa [filter_true])
  unfold handed at h
  split at h
  · rename_i rule hrule
    cases rule with
    | descend | forLoop | call | exceptHandler => exact hchildren h
    | ignore | globalNames | name | importNames | importFrom => cases h
    | listComp | generatorExp => exact (mem_append.mp h).elim (hitems _) (hvalue _)
    | dictComp =>
      rcases mem_append.mp h with h | h
      · exact (mem_append.mp h).elim (hitems _) (hvalue _)
      · exact hvalue _ h
    | functionDef => exact (mem_append.mp h).elim (hitems _) isLess_of_aroundFunction
    | lambda => exact isLess_of_aroundFunction h
    | classDef =>
      rcases mem_append.mp h with h | h
      · rcases mem_append.mp h with h | h
        · exact (mem_append.mp h).elim (hitems _) (hitems _)
        · split at h
          · cases h
          · exact hitems _ h
      · exact hitems _ h
    | assign => exact (mem_append.mp h).elim (hvalue _) (hitems _)
    | augAssign => exact (mem_append.mp h).elim (hvalue _) (hvalue _)
    | tryBlock => exact (mem_append.mp h).elim (hitems _) hchild
  · cases h

end NodeOf

namespace Check

variable {α β : Type} {cfg : Setup}

/-- Two steps that go on alike from wherever the first step ends. -/
theorem bind_congr_of {x : Check α} {f g : α → Check β}
    (h : ∀ s a t, x s = .ok a t → f a t = g a t) : x >>= f = x >>= g := by
  funext s
  rw [bind_apply, bind_apply]
  cases hx : x s with
  | ok a t => exact h s a t hx
  | error e t => rfl

theorem Routine.congr {ks : List ScopeKind} {ps : List Leg} {ds : List Duty}
    {x : Visit → Check α} {xs : Script α} (h : Routine cfg n ks ps ds x xs) {visit other : Visit}
    (hv : ∀ v ∈ ps.map (·.2), visit v n = other v n) : x visit = x other := by
  induction h with
  | pure _ | throw _ | act _ _ _ | future _ _ _ | defers _ _ _ _ => rfl
  | bind hx _ ihx ihf =>
    rw [map_append, forall_mem_append] at hv
    dsimp only
    rw [ihx hv.1]
    refine bind_congr_of fun s a t ha => ?_
    obtain ⟨ops, hops⟩ := hx.exists_ops ⟨s, t, ha⟩
    rw [ihf a ops hops hv.2]
  | late _ _ _ _ ih =>
    dsimp only
    rw [ih hv]
  | visit value => exact hv value (by simp)
  | scope _ _ _ ih =>
    rw [map_legsIn] at hv
    dsimp only
    rw [ih (by rwa [map_legs])]
  | guard _ _ _ ih =>
    dsimp only
    rw [ih hv]

/-- The rule for a node depends on the visits of what the node hands on alone. -/
theorem handleNode_congr {visit other : Visit}
    (hv : ∀ v ∈ n.handed cfg.dialect, visit v n = other v n) :
    handleNode cfg visit n = handleNode cfg other n :=
  (routine_handleNode cfg n).congr fun v hmem => hv v ((n.taken_subperm cfg.dialect).subset hmem)

/-- Two bounds that are large enough for a value give the same visit. -/
theorem visitWithin_congr {fuel more : Nat} (hfuel : v.IsLess (fuel + 1))
    (hmore : v.IsLess (more + 1)) (parent : Node) :
    visitWithin cfg fuel v parent = visitWithin cfg more v parent := by
  induction fuel generalizing more v parent with
  | zero =>
    have hnull : v.isNull = true := hfuel.resolve_right (Nat.not_lt.mpr v.one_le_size)
    cases v with
    | null => cases more <;> rfl
    | _ => cases hnull
  | succ fuel ih =>
    cases v with
    | null => cases more <;> rfl
    | node m =>
      rcases hfuel with hnull | hfuel
      · cases hnull
      rcases hmore with hnull | hmore
      · cases hnull
      rw [Value.size] at hfuel hmore
      cases more with
      | zero => exact absurd hmore (Nat.not_lt.mpr (Nat.succ_le_of_lt (m.size_eq ▸ Nat.succ_pos _)))
      | succ more =>
        have hbelow : handleNode cfg (visitWithin cfg fuel) m =
            handleNode cfg (visitWithin cfg more) m :=
          handleNode_congr fun v hv =>
            ih ((NodeOf.isLess_of_handed hv).mono (Nat.le_of_lt_succ hfuel))
              ((NodeOf.isLess_of_handed hv).mono (Nat.le_of_lt_succ hmore)) m
        rw [visitWithin, visitWithin, visitOne, visitOne, hbelow]
    | _ =>
      cases more with
      | zero =>
        exact absurd (hmore.resolve_left Bool.false_ne_true) (Nat.not_lt.mpr (Value.one_le_size _))
      | succ more => rfl

theorem visitWithin_eq_visit {fuel : Nat} (h : v.IsLess (fuel + 1)) (parent : Node) :
    visitWithin cfg fuel v parent = visit cfg v parent :=
  visitWithin_congr h (.inr (Nat.lt_succ_self _)) parent

/-- A visit of a node applies the rule for the node, with visits for what is below. -/
theorem visit_eq (cfg : Setup) (v : Value) (parent : Node) :
    visit cfg v parent = visitOne cfg (handleNode cfg (visit cfg)) v parent := by
  cases v with
  | node m =>
    have hsize : (Value.node m).size = Value.sizeFields m.fields + 1 := by rw [Value.size, m.size_eq]
    have hbelow : handleNode cfg (visitWithin cfg (Value.sizeFields m.fields)) m =
        handleNode cfg (visit cfg) m :=
      handleNode_congr fun v hv =>
        visitWithin_eq_visit (m.size_eq ▸ NodeOf.isLess_of_handed hv) m
    rw [visit, hsize, visitWithin, visitOne, visitOne, hbelow]
  | _ => simp only [visit, Value.size, visitWithin, visitOne]

end Check

end ScopeLint
