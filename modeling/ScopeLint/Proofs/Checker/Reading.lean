import ScopeLint.Proofs.Checker.Cover
import ScopeLint.Proofs.Checker.ScriptLegs
import ScopeLint.Proofs.Checker.Soundness
import ScopeLint.Proofs.Checker.Unrolling

/-! # What can be read off nodes of the grammar

The fields of a node of the grammar are there and hold what they are for, so that names, signatures
and parameters can be read off it. -/
namespace ScopeLint

open List

variable {d : Dialect} {category : Category} {v : Value} {n : Node}

/-- A value that can be visited. -/
def Value.IsNodal (v : Value) : Prop := v = .null ∨ ∃ m, v = .node m

theorem Value.isNodal_of_fits (h : v = .null ∨ (Content.node category).fits d v = true) :
    v.IsNodal :=
  h.imp_right fun hfits => (Content.fits_node hfits).imp fun _ => And.left

namespace NodeOf

theorem exists_nodal (h : n.isFormed d = true) (name : String) (category : Category)
    (hf : n.HasField d (.optional name (.node category))) : ∃ v, n.get name = .ok v ∧ v.IsNodal := by
  obtain ⟨v, hget, hfits⟩ := exists_get h hf
  exact ⟨v, hget, Value.isNodal_of_fits (FieldRule.fits_single hfits (.inr rfl))⟩

theorem exists_gaps (h : n.isFormed d = true) (name : String) (category : Category)
    (hf : n.HasField d (.manyOptional name (.node category))) :
    ∃ items, n.get name = .ok (.list items) ∧ ∀ v ∈ items, v.IsNodal := by
  obtain ⟨v, hget, hfits⟩ := exists_get h hf
  obtain ⟨items, rfl, hall⟩ := FieldRule.fits_list hfits (.inr rfl)
  exact ⟨items, hget, fun v hv => Value.isNodal_of_fits (hall v hv)⟩

theorem exists_parameter (h : d.categoryOf n.kind = some .parameter ∧ n.IsWhole d) :
    ∃ s v, n.get "arg" = .ok (.text s) ∧ n.get "annotation" = .ok v ∧ v.IsNodal := by
  obtain ⟨hcategory, hwhole⟩ := h
  obtain ⟨s, hs, -⟩ :=
    exists_identifier hwhole.formed "arg" (hasField_of_category hcategory (by decide))
  obtain ⟨v, hv, hnodal⟩ := exists_nodal hwhole.formed "annotation" .expression
    (hasField_of_category hcategory (by decide))
  exact ⟨s, v, hs, hv, hnodal⟩

end NodeOf

namespace Signature

open NodeOf

theorem exists_parameterNames {args : Node} (h : args.IsWhole d) (name : String)
    (hf : args.HasField d (.many name (.node .parameter))) :
    ∃ names : List String, parameterNames (.node args) name = .ok (names.map .text) := by
  obtain ⟨ms, hget, hms⟩ := exists_nodes h name _ hf
  have hargs : (Value.node args).get name = .ok (.list (ms.map .node)) := hget
  have hread (v : Value) (hv : v ∈ ms.map Value.node) :
      ∃ s, (do return (← v.get "arg").datum : Except Fault Datum) = .ok (.text s) := by
    obtain ⟨m, hm, rfl⟩ := mem_map.mp hv
    obtain ⟨s, -, hs, -⟩ := exists_parameter (hms m hm)
    exact ⟨s, by rw [Value.get, hs]; rfl⟩
  obtain ⟨names, hnames⟩ := exists_mapM_eq_map hread
  exact ⟨names, by rw [parameterNames, hargs]; exact hnames⟩

theorem exists_ofFunction (h : n.IsWhole d) (hrule : Rule.of? n.kind = some .functionDef) :
    ∃ signature, ofFunction n = .ok signature := by
  obtain ⟨decorators, hdecorators, -⟩ := exists_list h.formed "decorator_list" Grammar.expression
    (hasField_of_rule hrule (by decide))
  obtain ⟨args, hargs, hcategory, hwhole⟩ :=
    exists_node h "args" .parameters (hasField_of_rule hrule (by decide))
  obtain ⟨positional, hpositional⟩ :=
    exists_parameterNames hwhole "args" (hasField_of_category hcategory (by decide))
  obtain ⟨keywordOnly, hkeywordOnly⟩ :=
    exists_parameterNames hwhole "kwonlyargs" (hasField_of_category hcategory (by decide))
  obtain ⟨defaults, hdefaults, -⟩ := exists_list hwhole.formed "defaults" Grammar.expression
    (hasField_of_category hcategory (by decide))
  obtain ⟨keywordDefaults, hkeywordDefaults, -⟩ := exists_gaps hwhole.formed "kw_defaults" .expression
    (hasField_of_category hcategory (by decide))
  -- what the starred parameters hold depends on the dialect
  have hstarred (name : String) (htable : ∀ d : Dialect, ∀ p ∈ d.grammar, p.category = .parameters →
      name ∈ p.fields.map (·.name)) : ∃ v, args.get name = .ok v := by
    obtain ⟨p, hp⟩ := exists_madeBy hwhole.formed
    obtain ⟨f, hf, rfl⟩ := mem_map.mp (htable d p hp.mem (hp.category_eq hcategory))
    exact (hp.get f hf).imp fun _ => And.left
  obtain ⟨more, hmore⟩ := hstarred "vararg" (by decide)
  obtain ⟨keywords, hkeywords⟩ := hstarred "kwarg" (by decide)
  simp only [ofFunction, itemsOf, hdecorators, hargs, hpositional, hkeywordOnly, Value.get,
    hdefaults, hkeywordDefaults, hmore, hkeywords, Value.items, ok_bind]
  exact ⟨_, rfl⟩

theorem exists_bindKeywords (s : Signature) {ms : List Node}
    (h : ∀ m ∈ ms, d.categoryOf m.kind = some .keyword ∧ m.IsWhole d) (filled : Filled) :
    ∃ r, bindKeywords s filled (ms.map .node) = .ok r := by
  induction ms generalizing filled with
  | nil => exact ⟨_, rfl⟩
  | cons m rest ih =>
    obtain ⟨⟨hcategory, hwhole⟩, hrest⟩ := forall_mem_cons.mp h
    obtain ⟨keyword, hkeyword, -⟩ :=
      exists_identifier hwhole.formed "arg" (hasField_of_category hcategory (by decide))
    rw [map_cons, bindKeywords, Value.get, hkeyword, ok_bind]
    dsimp only
    split
    · exact ih hrest _
    · exact ⟨_, rfl⟩

theorem exists_problem? (s : Signature) (h : n.IsWhole d) (hrule : Rule.of? n.kind = some .call) :
    ∃ r, s.problem? n = .ok r := by
  obtain ⟨args, hargs, -⟩ := exists_list h.formed "args" Grammar.expression
    (hasField_of_rule hrule (by decide))
  obtain ⟨keywords, hkeywords, hwhole⟩ :=
    exists_nodes h "keywords" .keyword (hasField_of_rule hrule (by decide))
  obtain ⟨more, hmore, -⟩ := exists_nodal h.formed "starargs" .expression
    (hasField_of_rule hrule (by decide))
  obtain ⟨named, hnamed, -⟩ := exists_nodal h.formed "kwargs" .expression
    (hasField_of_rule hrule (by decide))
  have hkeywords : n.itemsOf "keywords" = .ok (keywords.map .node) := by
    rw [itemsOf, hkeywords]
    rfl
  have hargs : n.itemsOf "args" = .ok args := by
    rw [itemsOf, hargs]
    rfl
  unfold problem?
  split
  · exact ⟨_, rfl⟩
  · rw [hargs, ok_bind]
    split
    · exact ⟨_, rfl⟩
    · rw [hkeywords, ok_bind]
      obtain ⟨r, hr⟩ := exists_bindKeywords s hwhole
        ⟨(range (min args.length s.positional.length)).map fun i : Nat => (i : Int), []⟩
      rw [hr, ok_bind]
      cases r with
      | error problem => exact ⟨_, rfl⟩
      | ok filled =>
        simp only [given, hmore, hnamed, ok_bind, pure_bind]
        -- whichever of the last tests succeed
        repeat' split
        all_goals exact ⟨_, rfl⟩

end Signature

section Names

theorem Value.field?_of_nameOf (h : v.nameOf.truthy = true) :
    ∃ key, (key = "id" ∨ key = "name") ∧ v.field? key = some v.nameOf := by
  have hother (hname : ((v.field? "name").getD (.bool false)).truthy = true) :
      v.field? "name" = some ((v.field? "name").getD (.bool false)) := by
    cases hfield : v.field? "name" with
    | none =>
      rw [hfield] at hname
      cases hname
    | some w => rfl
  unfold nameOf at h ⊢
  split
  · rename_i i hid
    rw [hid] at h
    by_cases htruthy : i.truthy = true
    · exact ⟨"id", .inl rfl, by simpa [htruthy] using hid⟩
    · simp only [htruthy] at h ⊢
      exact ⟨"name", .inr rfl, hother h⟩
  · rename_i hid
    rw [hid] at h
    exact ⟨"name", .inr rfl, hother h⟩

theorem NodeOf.exists_text_of_nameOf? (h : n.isFormed d = true) {name : Datum}
    (hname : (Value.node n).nameOf? = some name) : ∃ text, name = .text text := by
  have htable : ∀ d : Dialect, ∀ p ∈ d.grammar, ∀ f ∈ p.fields, f.name = "id" ∨ f.name = "name" →
      f.content = .identifier ∧ (f.arity = .one ∨ f.arity = .optional) := by
    decide
  have htext (key : String) (hkey : key = "id" ∨ key = "name") (v : Value)
      (hv : n.field? key = some v) (htruthy : v.truthy = true) : ∃ text, v = .text text := by
    obtain ⟨p, hp⟩ := exists_madeBy h
    obtain ⟨f, hf, rfl, hfits⟩ := (hp.rule_of_field? hv).resolve_right (by
      rintro ⟨rfl, -⟩
      simp at hkey)
    obtain ⟨hcontent, harity⟩ := htable d p hp.mem f hf hkey
    rcases FieldRule.fits_single hfits harity with rfl | hfits
    · cases htruthy
    · rw [hcontent] at hfits
      obtain ⟨s, rfl, -⟩ := Content.fits_identifier hfits
      exact ⟨s, rfl⟩
  unfold Value.nameOf? at hname
  split at hname
  · rename_i htruthy
    cases hname
    obtain ⟨key, hkey, hfield⟩ := Value.field?_of_nameOf htruthy
    obtain ⟨text, htext⟩ := htext key hkey _ hfield htruthy
    exact ⟨text, by rw [htext]; rfl⟩
  · cases hname

/-- The name that a node is written with, if it is a plain name. -/
def NodeOf.identifier? (n : Node) : Option String :=
  if n.kind = "Name" then (n.field? "id").bind Value.text? else none

/-- A plain name holds no other one, and what only says how it is used holds none. -/
theorem NodeOf.identifiers_of_leaf (h : n.IsWhole d)
    (hkind : n.kind = "Name" ∨ Check.contextKinds.contains n.kind = true) :
    n.nodes.filterMap identifier? = n.identifier?.toList := by
  have htable : ∀ d : Dialect, ∀ p ∈ d.grammar,
      (p.kind = "Name" ∨ Check.contextKinds.contains p.kind = true →
        ∀ f ∈ p.fields, f.content = .identifier ∨ f.content = .node .context) ∧
      (p.category = .context → p.kind ≠ "Name") := by
    decide
  obtain ⟨p, hp⟩ := exists_madeBy h.formed
  have hbelow : (n.children.flatMap nodes).filterMap identifier? = [] := by
    refine filterMap_eq_nil_iff.mpr fun x hx => ?_
    obtain ⟨c, hc, hx⟩ := mem_flatMap.mp hx
    obtain ⟨f, hf, -, -, -, -, category, hcontent, hcategory⟩ := hp.child hc
    obtain rfl : category = .context := by
      simpa [hcontent] using (htable d p hp.mem).1 (hp.kind_eq ▸ hkind) f hf
    obtain ⟨q, hq⟩ := exists_madeBy (h.child hc).formed
    have hcontext := hq.category_eq hcategory
    rw [nodes_eq, hq.below_eq_nil (by rw [hcontext]; rfl)] at hx
    obtain rfl := mem_singleton.mp hx
    rw [identifier?, if_neg (hq.kind_eq ▸ (htable d q hq.mem).2 hcontext)]
  rw [nodes_eq, hp.below_eq]
  cases hself : n.identifier? <;> simp [hself, hbelow]

/-- The names in the target of a loop are all plain names in it, however they are used. -/
theorem Check.loopNames_eq {fuel : Nat} (h : n.IsWhole d) (hfuel : n.size ≤ fuel) :
    loopNames fuel (.node n) = .ok ((n.nodes.filterMap NodeOf.identifier?).map .text) := by
  induction fuel generalizing n with
  | zero => exact absurd hfuel (by simp [n.size_eq])
  | succ fuel ih =>
    unfold loopNames
    dsimp only
    split
    · rename_i hkind
      obtain ⟨s, hs, -⟩ := NodeOf.exists_identifier h.formed "id"
        (NodeOf.hasField_of_kind hkind (by decide))
      rw [hs, NodeOf.identifiers_of_leaf h (.inl hkind), NodeOf.identifier?, if_pos hkind,
        NodeOf.field?_of_get hs]
      rfl
    · rename_i hname
      have hnone : n.identifier? = none := by rw [NodeOf.identifier?, if_neg hname]
      split
      · rename_i hword
        rw [NodeOf.identifiers_of_leaf h (.inr hword), hnone]
        rfl
      · have hchildren : (n.children.mapM fun c => loopNames fuel (.node c)) =
            .ok (n.children.map fun c => (c.nodes.filterMap NodeOf.identifier?).map .text) := by
          refine mapM_eq_ok.mpr (forall₂_map_right_iff.mpr (forall₂_same.mpr fun c hc => ?_))
          exact ih (h.child hc) (by have hless := NodeOf.size_lt_of_mem_children hc; omega)
        obtain ⟨p, hp⟩ := NodeOf.exists_madeBy h.formed
        rw [hchildren, n.nodes_eq, hp.below_eq, filterMap_cons_none hnone, filterMap_flatMap,
          map_flatMap, flatMap_def]
        rfl

theorem Check.exists_importedName {item : Node} (h : item.isFormed d = true)
    (hcategory : d.categoryOf item.kind = some .alias) :
    (∃ s, item.get "name" = .ok (.text s)) ∧ ∃ full, importedName (.node item) = .ok full := by
  obtain ⟨s, hs, -⟩ :=
    NodeOf.exists_identifier h "name" (NodeOf.hasField_of_category hcategory (by decide))
  refine ⟨⟨s, hs⟩, ?_⟩
  unfold importedName
  rcases NodeOf.exists_optional_identifier h "asname"
    (NodeOf.hasField_of_category hcategory (by decide)) with hnull | ⟨t, ht, hne⟩
  · exact ⟨s, by simp [Value.get, hnull, hs, Value.truthy]; rfl⟩
  · exact ⟨t, by simp [Value.get, ht, hne, Value.truthy]; rfl⟩

theorem Check.exists_caughtNames {handler : Node} (h : handler.IsWhole d)
    (hcategory : d.categoryOf handler.kind = some .handler) :
    ∃ names, caughtNames (.node handler) = .ok names := by
  unfold caughtNames
  rcases NodeOf.exists_optional_node h "type" .expression
    (NodeOf.hasField_of_category hcategory (by decide)) with hnull | ⟨m, hm, -, hwhole⟩
  · exact ⟨[], by simp [Value.get, hnull, Value.isKind, Value.truthy]; rfl⟩
  · by_cases htuple : m.kind = "Tuple"
    · obtain ⟨items, hitems, -⟩ := NodeOf.exists_list hwhole.formed "elts" Grammar.expression
        (NodeOf.hasField_of_kind htuple (by decide))
      exact ⟨_, by simp [Value.get, hm, hitems, Value.isKind, htuple, Value.items]; rfl⟩
    · exact ⟨_, by simp [Value.get, hm, Value.isKind, htuple, Value.truthy]; rfl⟩

end Names

end ScopeLint
