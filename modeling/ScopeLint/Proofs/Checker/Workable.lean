import ScopeLint.Proofs.Checker.Reading

/-! # Rules that get through

The script of a rule can be read off a node of the grammar, and its steps cannot fail in a sound
state, stores apart. -/
namespace ScopeLint

open List NodeOf

variable {d : Dialect} {rule : Rule}

/-- A step of the rule for `n` that succeeds in a sound state if visits do. Of a store more has to be
known. -/
def Op.Harmless (cfg : Setup) (n : Node) : Op → Prop
  | .act (.store _) => False
  | .act a => Check.Safe cfg (a.run cfg)
  | .late _ => n.IsPlaced cfg.dialect
  | .future b => n.IsPlaced cfg.dialect ∧ b.Sound cfg.dialect
  | .opens kind => kind ≠ .module
  | .defers task => n.isFunction = true ∧ ∃ names : List String, task = .body n (names.map .text)
  | .visit v => v.IsNodal
  | .closes | .guards _ | .unguards => True

namespace Script

open Check

variable {α β : Type} {cfg : Setup} {n : Node}

/-- The script can be read off the node, with an answer of which `P` holds, and its steps are
harmless. -/
def Succeeds (cfg : Setup) (n : Node) (x : Script α) (P : α → Prop) : Prop :=
  ∃ a ops, x = .ok (a, ops) ∧ P a ∧ ∀ op ∈ ops, op.Harmless cfg n

abbrev Works (cfg : Setup) (n : Node) (x : Script α) : Prop := Succeeds cfg n x fun _ => True

section Combinators

variable {x : Script α} {f : α → Script β} {P : α → Prop} {Q : β → Prop} {y : Script Unit}
  {category : Category}

theorem succeeds_pure {a : α} (h : P a) : Succeeds cfg n (pure a) P := ⟨a, [], rfl, h, by simp⟩

theorem works_pure (a : α) : Works cfg n (pure a) := succeeds_pure trivial

theorem Succeeds.bind (hx : Succeeds cfg n x P) (hf : ∀ a, P a → Succeeds cfg n (f a) Q) :
    Succeeds cfg n (x >>= f) Q := by
  obtain ⟨a, first, ha, hp, hfirst⟩ := hx
  obtain ⟨b, rest, hb, hq, hrest⟩ := hf a hp
  refine ⟨b, first ++ rest, Script.bind_eq_ok.mpr ⟨a, first, rest, ha, hb, rfl⟩, hq, fun op hop => ?_⟩
  exact (mem_append.mp hop).elim (hfirst op) (hrest op)

theorem succeeds_lift_bind {y : Except Fault α} {a : α} (hy : y = .ok a)
    (hf : Succeeds cfg n (f a) Q) : Succeeds cfg n (lift y >>= f) Q := by
  have hlift : Succeeds cfg n (lift y) (· = a) := ⟨a, [], by rw [hy]; rfl, rfl, by simp⟩
  exact hlift.bind fun b hb => hb ▸ hf

theorem works_emit (op : Op) (h : op.Harmless cfg n) : Works cfg n (emit op) :=
  ⟨(), [op], rfl, trivial, by simpa using h⟩

theorem works_forM {g : α → Script Unit} {xs : List α} (h : ∀ a ∈ xs, Works cfg n (g a)) :
    Works cfg n (xs.forM g) := by
  induction xs with
  | nil => exact works_pure ()
  | cons a rest ih =>
    obtain ⟨hfirst, hrest⟩ := forall_mem_cons.mp h
    exact hfirst.bind fun _ _ => ih hrest

/-- A step that is taken on a condition, and what comes after it in any case. -/
theorem Succeeds.before {rest : Unit → Script β} {p : Prop} {_ : Decidable p}
    (hy : p → Works cfg n y) (hrest : ∀ u, Succeeds cfg n (rest u) Q) :
    Succeeds cfg n (if p then y >>= rest else rest ()) Q := by
  split
  · rename_i hp
    exact (hy hp).bind fun u _ => hrest u
  · exact hrest ()

theorem works_visits {vs : List Value} (h : ∀ v ∈ vs, v.IsNodal) : Works cfg n (visits vs) := by
  refine ⟨(), _, rfl, trivial, fun op hop => ?_⟩
  obtain ⟨v, hv, rfl⟩ := mem_map.mp hop
  exact h v hv

theorem isNodal_of_mem_map {ms : List Node} : ∀ v ∈ ms.map Value.node, v.IsNodal := by
  intro v hv
  obtain ⟨m, -, rfl⟩ := mem_map.mp hv
  exact .inr ⟨m, rfl⟩

theorem works_visitChildren : Works cfg n (visitChildren n) := works_visits isNodal_of_mem_map

theorem works_visitItems (h : n.IsWhole d) (name : String)
    (hf : n.HasField d (.many name (.node category))) : Works cfg n (visitItems n name) := by
  obtain ⟨ms, hms, -⟩ := exists_nodes h name _ hf
  refine succeeds_lift_bind (a := ms.map .node) (by rw [itemsOf, hms]; rfl) ?_
  exact works_visits isNodal_of_mem_map

theorem works_visitField (h : n.IsWhole d) (name : String)
    (hf : n.HasField d (.one name (.node category))) : Works cfg n (visitField n name) := by
  obtain ⟨m, hm, -⟩ := exists_node h name _ hf
  exact succeeds_lift_bind hm (works_emit (.visit (.node m)) (.inr ⟨m, rfl⟩))

theorem works_inScope {kind : ScopeKind} (hkind : kind ≠ .module) (hy : Works cfg n y) :
    Works cfg n (inScope kind y) :=
  (works_emit (.opens kind) hkind).bind fun _ _ => hy.bind fun _ _ => works_emit .closes trivial

theorem works_underGuard {names : List Datum} (hy : Works cfg n y) :
    Works cfg n (underGuard names y) :=
  (works_emit (.guards names) trivial).bind fun _ _ => hy.bind fun _ _ => works_emit .unguards trivial

end Combinators

theorem isPlaced_of_rule (h : n.IsWhole d) (hrule : Rule.of? n.kind = some rule)
    (hown : rule.fields ≠ []) : n.IsPlaced d := by
  have htable : ∀ d : Dialect, ∀ p ∈ d.grammar, ∀ rule ∈ Rule.special.map (·.2),
      p.fields = rule.fields → p.category.isPlaced = true := by
    decide
  have hspecial : rule ∈ Rule.special.map (·.2) := by
    revert hown
    cases rule <;> decide
  obtain ⟨p, hp⟩ := exists_madeBy h.formed
  exact ⟨h, hp.position (htable d p hp.mem rule hspecial (hp.fields_eq hrule hown))⟩

/-- Parameters of which the names are texts and all else can be visited. -/
structure IsRead (ps : Parameters) : Prop where
  names : ∃ names : List String, ps.names = names.map .text
  annotations : ∀ v ∈ ps.annotations, v.IsNodal
  defaults : ∃ items, ps.defaults = .list items ∧ ∀ v ∈ items, v.IsNodal

section Rules

variable {name : String} {args : Node}

theorem exists_both {ms : List Node}
    (h : ∀ m ∈ ms, d.categoryOf m.kind = some .parameter ∧ m.IsWhole d) :
    ∃ both : List (Datum × Value), (ms.map Value.node).mapM (fun arg => do
        let annotated ← arg.get "annotation"
        return ((← arg.get "arg").datum, annotated)) = (.ok both : Except Fault _) ∧
      (∃ names : List String, both.map (·.1) = names.map .text) ∧
      ∀ v ∈ both.map (·.2), v.IsNodal := by
  have hread (arg : Value) (harg : arg ∈ ms.map Value.node) :
      ∃ c : String × { v : Value // v.IsNodal }, (do
        let annotated ← arg.get "annotation"
        return ((← arg.get "arg").datum, annotated)) =
      (.ok (.text c.1, c.2.1) : Except Fault (Datum × Value)) := by
    obtain ⟨m, hm, rfl⟩ := mem_map.mp harg
    obtain ⟨s, v, hs, hv, hnodal⟩ := exists_parameter (h m hm)
    exact ⟨(s, ⟨v, hnodal⟩), by simp only [Value.get, hs, hv, ok_bind]; rfl⟩
  obtain ⟨both, hboth⟩ := exists_mapM_eq_map hread
  refine ⟨_, hboth, ⟨both.map (·.1), by simp⟩, fun v hv => ?_⟩
  rw [map_map] at hv
  obtain ⟨c, -, rfl⟩ := mem_map.mp hv
  exact c.2.2

variable (hcfg : cfg.Plain) (hn : n.IsWhole cfg.dialect)
include hn

theorem succeeds_plainParameters (hargs : args.IsWhole cfg.dialect)
    (hcategory : cfg.dialect.categoryOf args.kind = some .parameters) :
    Succeeds cfg n (plainParameters cfg.dialect n (.node args)) IsRead := by
  obtain ⟨plain, hplain, hpall⟩ :=
    exists_nodes hargs "args" .parameter (hasField_of_category hcategory (by decide))
  obtain ⟨only, honly, hoall⟩ :=
    exists_nodes hargs "kwonlyargs" .parameter (hasField_of_category hcategory (by decide))
  obtain ⟨defaults, hdefaults, -⟩ :=
    exists_nodes hargs "defaults" .expression (hasField_of_category hcategory (by decide))
  obtain ⟨gaps, hgaps, hgap⟩ := exists_gaps hargs.formed "kw_defaults" .expression
    (hasField_of_category hcategory (by decide))
  have hall : ∀ m ∈ plain ++ only,
      cfg.dialect.categoryOf m.kind = some .parameter ∧ m.IsWhole cfg.dialect :=
    forall_mem_append.mpr ⟨hpall, hoall⟩
  obtain ⟨both, hboth, hnames, hnodal⟩ := exists_both hall
  obtain ⟨p, hp⟩ := exists_madeBy hn.formed
  rw [plainParameters, if_neg (by simp [hp.isTwo_eq])]
  refine succeeds_lift_bind (a := (plain ++ only).map .node) ?_ (succeeds_lift_bind hboth ?_)
  · simp [Value.get, hplain, honly, Value.add, Value.items]
  · refine succeeds_lift_bind (a := .list (defaults.map .node ++ gaps)) ?_ (succeeds_pure ?_)
    · simp [Value.get, hdefaults, hgaps, Value.add]
    · exact ⟨hnames, hnodal, _, rfl, forall_mem_append.mpr ⟨isNodal_of_mem_map, hgap⟩⟩

omit hn in
/-- A starred parameter is a node with its annotation, or a name with the annotation beside it. -/
theorem starred_fields (hname : name = "vararg" ∨ name = "kwarg") (d : Dialect) :
    ∀ p ∈ d.grammar, p.category = .parameters →
      (d = .threeFour → .optional name (.node .parameter) ∈ p.fields) ∧
      (d ≠ .threeFour → .optional name .identifier ∈ p.fields ∧
        .optional (name ++ "annotation") Grammar.expression ∈ p.fields) := by
  rcases hname with rfl | rfl <;> cases d <;> decide

omit hn in
theorem exists_starred (hargs : args.IsWhole cfg.dialect)
    (hcategory : cfg.dialect.categoryOf args.kind = some .parameters)
    (hname : name = "vararg" ∨ name = "kwarg") :
    ∃ starred, args.get name = .ok starred ∧ (starred = .null ∨ starred.truthy = true ∧
      (∃ s, ((starred.field? "arg").getD starred).datum = .text s) ∧
      ∃ v, annotationStarred cfg (.node args) starred name = .ok v ∧ v.IsNodal) := by
  have hfields (p : Production) (hp : p ∈ cfg.dialect.grammar) (hkind : p.kind = args.kind) :=
    starred_fields hname _ p hp <| Option.some.inj <|
      (Dialect.categoryOf_of_mem hp).symm.trans (hkind ▸ hcategory)
  unfold Check.annotationStarred
  by_cases hdialect : cfg.dialect = .threeFour
  · rcases exists_optional_node hargs name .parameter fun p hp hkind =>
      (hfields p hp hkind).1 hdialect with hnull | ⟨m, hm, hparameter⟩
    · exact ⟨.null, hnull, .inl rfl⟩
    · obtain ⟨s, v, hs, hv, hnodal⟩ := exists_parameter hparameter
      have hfield := field?_of_get hs
      refine ⟨.node m, hm, .inr ⟨rfl, ⟨s, by simp [Value.field?, hfield]; rfl⟩, v, ?_, hnodal⟩⟩
      rw [if_pos hdialect]
      exact hv
  · obtain ⟨v, hv, hnodal⟩ := exists_nodal hargs.formed (name ++ "annotation") .expression
      fun p hp hkind => ((hfields p hp hkind).2 hdialect).2
    rcases exists_optional_identifier hargs.formed name fun p hp hkind =>
      ((hfields p hp hkind).2 hdialect).1 with hnull | ⟨s, hs, hne⟩
    · exact ⟨.null, hnull, .inl rfl⟩
    · refine ⟨.text s, hs, .inr ⟨by simpa [Value.truthy] using hne, ⟨s, rfl⟩, v, ?_, hnodal⟩⟩
      rw [if_neg hdialect]
      exact hv

omit hn in
theorem exists_starredParameter (hargs : args.IsWhole cfg.dialect)
    (hcategory : cfg.dialect.categoryOf args.kind = some .parameters)
    (hname : name = "vararg" ∨ name = "kwarg") {ps : Parameters} (hps : IsRead ps) :
    ∃ more, starredParameter cfg n (.node args) ps name = .ok more ∧ IsRead more := by
  obtain ⟨starred, hget, hstarred⟩ := exists_starred hargs hcategory hname
  unfold starredParameter
  rw [Value.get, hget, ok_bind]
  rcases hstarred with rfl | ⟨htruthy, ⟨s, hs⟩, v, hv, hnodal⟩
  · exact ⟨ps, rfl, hps⟩
  · obtain ⟨⟨names, hnames⟩, hannotations, hdefaults⟩ := hps
    have hread : ∃ names' : List String, ps.names ++ [((starred.field? "arg").getD starred).datum] =
        names'.map .text := ⟨names ++ [s], by simp [hnames, hs]⟩
    simp only [htruthy, Bool.not_true, Bool.false_eq_true, if_false]
    split
    · rw [hv, ok_bind]
      refine ⟨_, rfl, hread, forall_mem_append.mpr ⟨hannotations, ?_⟩, hdefaults⟩
      simpa using hnodal
    · exact ⟨_, rfl, hread, hannotations, hdefaults⟩

omit hn in
theorem isNodal_of_returns (h : n.isFormed d = true) {v : Value} (hv : n.field? "returns" = some v) :
    v.IsNodal := by
  have htable : ∀ d : Dialect, ∀ p ∈ d.grammar, ∀ f ∈ p.fields, f.name = "returns" →
      f = .optional "returns" Grammar.expression := by
    decide
  obtain ⟨p, hp⟩ := exists_madeBy h
  rcases hp.rule_of_field? hv with ⟨f, hf, hname, hfits⟩ | ⟨-, rfl⟩
  · obtain rfl := htable d p hp.mem f hf hname
    exact Value.isNodal_of_fits (FieldRule.fits_single hfits (.inr rfl))
  · exact .inl rfl

theorem succeeds_parametersOf (hargs : args.IsWhole cfg.dialect)
    (hcategory : cfg.dialect.categoryOf args.kind = some .parameters) :
    Succeeds cfg n (parametersOf cfg n (.node args)) IsRead := by
  refine (succeeds_plainParameters hn hargs hcategory).bind fun ps hps => ?_
  obtain ⟨more, hmore, hps⟩ := exists_starredParameter hargs hcategory (.inl rfl) hps
  refine succeeds_lift_bind hmore ?_
  obtain ⟨all, hall, hps⟩ := exists_starredParameter hargs hcategory (.inr rfl) hps
  refine succeeds_lift_bind hall ?_
  split
  · rename_i hhas
    obtain ⟨v, hv⟩ := Option.isSome_iff_exists.mp hhas
    have hget : n.get "returns" = .ok v := by rw [NodeOf.get, hv]
    refine succeeds_lift_bind hget (succeeds_pure ⟨hps.names, ?_, hps.defaults⟩)
    exact forall_mem_append.mpr ⟨hps.annotations, by simpa using isNodal_of_returns hn.formed hv⟩
  · exact succeeds_pure hps

include hcfg

omit hn in
theorem works_reportDuplicates (hplaced : n.IsPlaced cfg.dialect) (before names : List Datum) :
    Works cfg n (reportDuplicates n before names) := by
  induction names generalizing before with
  | nil => exact works_pure _
  | cons name rest ih =>
    refine Succeeds.before (fun _ => works_emit _ ?_) fun _ => ih (before ++ [name])
    exact safe_report hcfg ⟨n, rfl, hplaced⟩ (.one _ (by simp))

theorem works_lambda (hrule : Rule.of? n.kind = some rule)
    (hfunction : rule = .functionDef ∨ rule = .lambda) : Works cfg n (lambda cfg n) := by
  have hown : rule.fields ≠ [] := by rcases hfunction with rfl | rfl <;> decide
  have hisFunction : n.isFunction = true := by
    rw [NodeOf.isFunction, hrule]
    rcases hfunction with rfl | rfl <;> rfl
  have hargs : FieldRule.one "args" (.node .parameters) ∈ rule.fields := by
    rcases hfunction with rfl | rfl <;> decide
  obtain ⟨args, hargs, hcategory, hwhole⟩ := exists_node hn "args" _ (hasField_of_rule hrule hargs)
  refine succeeds_lift_bind hargs ((succeeds_parametersOf hn hwhole hcategory).bind fun ps hps => ?_)
  obtain ⟨⟨names, hnames⟩, hannotations, items, hitems, hdefaults⟩ := hps
  have hcheck : Works cfg n (checkParameters cfg.dialect n ps) := by
    unfold checkParameters
    split
    · refine (works_forM fun name hname => ?_).bind fun _ _ =>
        works_reportDuplicates hcfg (isPlaced_of_rule hn hrule hown) [] ps.names
      rw [hnames] at hname
      obtain ⟨s, -, rfl⟩ := mem_map.mp hname
      exact succeeds_lift_bind (a := .text s) rfl (works_pure _)
    · exact works_pure _
  refine hcheck.bind fun _ _ => succeeds_lift_bind (a := ps.annotations ++ items) ?_ ?_
  · simp [hitems, Value.add, Value.items]
  · refine (works_visits fun v hv => ?_).bind fun _ _ => works_emit _ ?_
    · exact forall_mem_append.mpr ⟨hannotations, hdefaults⟩ v (mem_filter.mp hv).1
    · exact ⟨hisFunction, names, by rw [hnames]⟩

omit hcfg hn in
theorem sound_fresh (hplaced : n.IsPlaced cfg.dialect) (s : String) (kind : BindingKind) :
    (Binding.fresh (.text s) kind (.node n)).Sound cfg.dialect :=
  ⟨⟨s, rfl⟩, ⟨n, rfl, hplaced⟩, fun _ h => nomatch h⟩

theorem works_functionDef (hrule : Rule.of? n.kind = some .functionDef) :
    Works cfg n (functionDef cfg n) := by
  have hplaced := isPlaced_of_rule hn hrule (by decide)
  have hdecorators : Works cfg n (visitItems n "decorator_list") := works_visitItems hn _
    (hasField_of_rule (f := .many "decorator_list" Grammar.expression) hrule (by decide))
  obtain ⟨name, hname, -⟩ :=
    exists_identifier hn.formed "name" (hasField_of_rule hrule (by decide))
  obtain ⟨signature, hsignature⟩ := Signature.exists_ofFunction hn hrule
  refine hdecorators.bind fun _ _ => ?_
  refine succeeds_lift_bind hname (succeeds_lift_bind hsignature ?_)
  refine (works_emit _ ?_).bind fun _ _ => (works_lambda hcfg hn hrule (.inl rfl)).bind fun _ _ => ?_
  · exact safe_bind hcfg hplaced (sound_fresh hplaced name _) true
  · rw [if_neg (by simp [hcfg.doctests])]
    exact works_pure _

theorem works_classDef (hrule : Rule.of? n.kind = some .classDef) :
    Works cfg n (classDef cfg n) := by
  have hplaced := isPlaced_of_rule hn hrule (by decide)
  have hlist (name : String) (category : Category)
      (hf : .many name (.node category) ∈ Rule.fields .classDef) : Works cfg n (visitItems n name) :=
    works_visitItems hn name (hasField_of_rule hrule hf)
  obtain ⟨name, hname, -⟩ :=
    exists_identifier hn.formed "name" (hasField_of_rule hrule (by decide))
  refine (hlist "decorator_list" .expression (by decide)).bind fun _ _ => ?_
  refine (hlist "bases" .expression (by decide)).bind fun _ _ => ?_
  refine Succeeds.before (fun _ => hlist "keywords" .keyword (by decide)) fun _ => ?_
  refine (works_inScope (by decide) ?_).bind fun _ _ => succeeds_lift_bind hname (works_emit _ ?_)
  · refine Succeeds.before (fun hdoctests => ?_)
      fun _ => hlist "body" .statement (by decide)
    exact absurd hdoctests (by simp [hcfg.doctests])
  · exact safe_bind hcfg hplaced (sound_fresh hplaced name _) true

omit hn in
theorem works_importation (hplaced : n.IsPlaced cfg.dialect) (full : String) :
    Works cfg n (emit (.act (.bind n (.importation full (.node n)) true))) :=
  works_emit _ (safe_bind hcfg hplaced (sound_fresh hplaced _ _) true)

theorem works_importNames (hrule : Rule.of? n.kind = some .importNames) :
    Works cfg n (importNames n) := by
  have hplaced := isPlaced_of_rule hn hrule (by decide)
  obtain ⟨items, hitems, hall⟩ :=
    exists_nodes hn "names" .alias (hasField_of_rule hrule (by decide))
  refine succeeds_lift_bind (a := items.map .node) (by rw [NodeOf.itemsOf, hitems]; rfl) ?_
  refine works_forM fun item hitem => ?_
  obtain ⟨m, hm, rfl⟩ := mem_map.mp hitem
  obtain ⟨-, full, hfull⟩ := exists_importedName (hall m hm).2.formed (hall m hm).1
  exact succeeds_lift_bind hfull (works_importation hcfg hplaced full)

theorem works_importFrom (hrule : Rule.of? n.kind = some .importFrom) :
    Works cfg n (importFrom n) := by
  have hplaced := isPlaced_of_rule hn hrule (by decide)
  obtain ⟨module, hmodule, -⟩ := exists_get hn.formed
    (hasField_of_rule (f := .optional "module" .identifier) hrule (by decide))
  obtain ⟨items, hitems, hall⟩ :=
    exists_nodes hn "names" .alias (hasField_of_rule hrule (by decide))
  have hitems : n.itemsOf "names" = .ok (items.map .node) := by
    rw [NodeOf.itemsOf, hitems]
    rfl
  have hitem : ∀ item ∈ items.map Value.node, (∃ v, item.get "name" = .ok v) ∧
      Works cfg n (importFromItem n module item) := by
    intro item hitem
    obtain ⟨m, hm, rfl⟩ := mem_map.mp hitem
    obtain ⟨⟨s, hs⟩, full, hfull⟩ := exists_importedName (hall m hm).2.formed (hall m hm).1
    refine ⟨⟨_, hs⟩, succeeds_lift_bind hs ?_⟩
    split
    · exact works_emit _ (safe_importStar hcfg hplaced module)
    · refine succeeds_lift_bind hfull ?_
      dsimp only
      split
      · exact works_emit (.future _) ⟨hplaced, sound_fresh hplaced _ _⟩
      · exact works_importation hcfg hplaced full
  refine succeeds_lift_bind hmodule ?_
  have hrest (_ : Unit) : Works cfg n (do
      (← lift (n.itemsOf "names")).forM (importFromItem n module)) :=
    succeeds_lift_bind hitems (works_forM fun item h => (hitem item h).2)
  dsimp only
  split
  · obtain ⟨names, hnames⟩ := exists_mapM_eq_ok fun item h => (hitem item h).1
    refine succeeds_lift_bind (a := names) ?_
      ((works_emit (.late names) hplaced).bind fun u _ => hrest u)
    rw [hitems, ok_bind, hnames]
  · refine (works_emit (.act .lateImports) ?_).bind fun u _ => hrest u
    exact safe_of_quiet (told_lateImports.ends cfg) fun s _ => ⟨(), _, rfl⟩

omit hcfg in
theorem works_tryBlock (hrule : Rule.of? n.kind = some .tryBlock) : Works cfg n (tryBlock n) := by
  obtain ⟨handlers, hhandlers, hall⟩ :=
    exists_nodes hn "handlers" .handler (hasField_of_rule hrule (by decide))
  have hfield : n.HasField cfg.dialect (.many "body" Grammar.statement) :=
    hasField_of_rule hrule (by decide)
  obtain ⟨body, hbody, -⟩ := exists_list hn.formed "body" _ hfield
  have hvisit : Works cfg n (visitItems n "body") := works_visitItems hn "body" hfield
  have hcaught : ∃ caught, (handlers.map Value.node).mapM caughtNames = .ok caught := by
    refine exists_mapM_eq_ok fun handler hhandler => ?_
    obtain ⟨m, hm, rfl⟩ := mem_map.mp hhandler
    exact exists_caughtNames (hall m hm).2 (hall m hm).1
  obtain ⟨caught, hcaught⟩ := hcaught
  refine succeeds_lift_bind (a := handlers.map .node) (by rw [NodeOf.itemsOf, hhandlers]; rfl) ?_
  refine succeeds_lift_bind hcaught ((works_underGuard hvisit).bind fun _ _ => ?_)
  refine works_forM fun c _ => succeeds_lift_bind (by rw [hbody]; rfl) ?_
  split
  · exact works_emit (.visit (.node c)) (.inr ⟨c, rfl⟩)
  · exact works_pure _

theorem works_forLoop (hrule : Rule.of? n.kind = some .forLoop) : Works cfg n (forLoop n) := by
  have hplaced := isPlaced_of_rule hn hrule (by decide)
  obtain ⟨target, htarget, -, hwhole⟩ := exists_node hn "target" .expression
    (hasField_of_rule hrule (by decide))
  have hnames := loopNames_eq hwhole (Nat.le_refl target.size)
  refine succeeds_lift_bind htarget (succeeds_lift_bind hnames ?_)
  · refine (works_forM fun name hname => works_emit _ ?_).bind fun _ _ => works_visitChildren
    obtain ⟨s, -, rfl⟩ := mem_map.mp hname
    have hkey : (Datum.text s).key = .ok (.text s) := rfl
    exact safe_reportShadowing hcfg hplaced hkey

theorem safe_checkCallee (hrule : Rule.of? n.kind = some .call) : Safe cfg (checkCallee cfg n) := by
  have hplaced := isPlaced_of_rule hn hrule (by decide)
  obtain ⟨function, hfunction, -, hwhole⟩ := exists_node hn "func" .expression
    (hasField_of_rule hrule (by decide))
  refine sure_lift_bind hfunction ?_
  split
  · rename_i hkind
    have hkind : function.kind = "Name" := by simpa [Value.isKind] using hkind
    obtain ⟨s, hs, -⟩ :=
      exists_identifier hwhole.formed "id" (hasField_of_kind hkind (by decide))
    refine sure_get.bind fun r hr => ?_
    obtain ⟨visible, hvisible⟩ := hr.orderly.visibleScopes_ok
    refine sure_lift_bind hvisible (sure_lift_bind hs (sure_lift_bind (a := .text s) rfl ?_))
    split
    · rename_i signature _ _ _
      obtain ⟨found, hfound⟩ := Signature.exists_problem? signature hn hrule
      refine sure_lift_bind hfound ?_
      split
      · exact safe_report hcfg ⟨n, rfl, hplaced⟩ (suits_problemReport _ _)
      · exact safe_pure _
    · exact safe_pure _
  · exact safe_pure _

theorem works_forName (hrule : Rule.of? n.kind = some .name) (hcontext : ∀ c, n.get "ctx" = .ok c →
      (c.isKind "Store" || c.isKind "AugStore") = false ∧ c.isKind "Param" = false) :
    Works cfg n (forName n) := by
  have htable : ∀ d : Dialect, ∀ p ∈ d.grammar, p.category = .context → p.kind ∈ contextKinds := by
    decide
  have hplaced := isPlaced_of_rule hn hrule (by decide)
  have hname (name : Datum) (h : (Value.node n).nameOf? = some name) : ∃ text, name = .text text :=
    exists_text_of_nameOf? hn.formed h
  obtain ⟨id, hid, -⟩ := exists_identifier hn.formed "id" (hasField_of_rule hrule (by decide))
  obtain ⟨c, hc, hcategory, -⟩ :=
    exists_node hn "ctx" .context (hasField_of_rule hrule (by decide))
  obtain ⟨p, hp, hkind, hp'⟩ := Dialect.exists_of_categoryOf hcategory
  have hkinds := htable _ p hp hp'
  obtain ⟨hstore, hparam⟩ := hcontext _ hc
  refine succeeds_lift_bind hc ?_
  split
  · refine (works_emit _ ?_).bind fun _ _ => works_emit _ ?_
    · exact safe_load hcfg ⟨n, rfl, hplaced⟩ hname
    · exact safe_noteLocals hid
  · rename_i hload
    rw [if_neg (by simp [hstore])]
    split
    · exact works_emit _ (safe_delete hcfg hplaced hname)
    · rename_i hdelete
      simp only [hkind, contextKinds, mem_cons, not_mem_nil, or_false] at hkinds
      simp only [Value.isKind, Bool.or_eq_true, Bool.or_eq_false_iff, beq_iff_eq, not_or,
        beq_eq_false_iff_ne] at hload hstore hdelete hparam
      rcases hkinds with h | h | h | h | h | h
      · exact absurd h hload.1
      · exact absurd h hstore.1
      · exact absurd h hdelete
      · exact absurd h hload.2
      · exact absurd h hstore.2
      · exact absurd h hparam

theorem works_ofRule (hrule : Rule.of? n.kind = some rule)
    (hcontext : rule = .name → ∀ c, n.get "ctx" = .ok c →
      (c.isKind "Store" || c.isKind "AugStore") = false ∧ c.isKind "Param" = false)
    (hhandler : rule ≠ .exceptHandler) : Works cfg n (ofRule cfg n rule) := by
  have hlist (name : String) (category : Category) (hf : .many name (.node category) ∈ rule.fields) :
      Works cfg n (visitItems n name) :=
    works_visitItems hn name (hasField_of_rule hrule hf)
  have hone (name : String) (category : Category) (hf : .one name (.node category) ∈ rule.fields) :
      Works cfg n (visitField n name) :=
    works_visitField hn name (hasField_of_rule hrule hf)
  cases rule with
  | descend => exact works_visitChildren
  | ignore => exact works_pure ()
  | globalNames =>
    obtain ⟨names, hnames⟩ :=
      exists_identifiers hn.formed "names" (hasField_of_rule hrule (by decide))
    refine works_emit _ (safe_ruleGlobal hnames fun v hv => ?_)
    obtain ⟨s, -, rfl⟩ := mem_map.mp hv
    exact ⟨.text s, rfl⟩
  | listComp =>
    exact (hlist "generators" .comprehension (by decide)).bind fun _ _ =>
      hone "elt" .expression (by decide)
  | generatorExp =>
    exact works_inScope (by decide) ((hlist "generators" .comprehension (by decide)).bind
      fun _ _ => hone "elt" .expression (by decide))
  | dictComp =>
    exact works_inScope (by decide) ((hlist "generators" .comprehension (by decide)).bind
      fun _ _ => (hone "key" .expression (by decide)).bind
        fun _ _ => hone "value" .expression (by decide))
  | forLoop => exact works_forLoop hcfg hn hrule
  | name => exact works_forName hcfg hn hrule (hcontext rfl)
  | call =>
    exact (works_emit (.act (.callee n)) (safe_checkCallee hcfg hn hrule)).bind fun _ _ =>
      works_visitChildren
  | functionDef => exact works_functionDef hcfg hn hrule
  | lambda => exact works_lambda hcfg hn hrule (.inr rfl)
  | classDef => exact works_classDef hcfg hn hrule
  | assign =>
    exact (hone "value" .expression (by decide)).bind fun _ _ =>
      hlist "targets" .expression (by decide)
  | augAssign =>
    obtain ⟨target, htarget, hcategory, hwhole⟩ := exists_node hn "target" .expression
      (hasField_of_rule hrule (by decide))
    refine succeeds_lift_bind htarget ((works_emit _ ?_).bind fun _ _ =>
      (hone "value" .expression (by decide)).bind fun _ _ =>
        hone "target" .expression (by decide))
    refine safe_load hcfg ⟨target, rfl, ?_⟩ fun name h => ?_
    · exact isPlaced_of_category hwhole hcategory rfl
    · exact exists_text_of_nameOf? hwhole.formed h
  | importNames => exact works_importNames hcfg hn hrule
  | importFrom => exact works_importFrom hcfg hn hrule
  | tryBlock => exact works_tryBlock hn hrule
  | exceptHandler => exact absurd rfl hhandler

end Rules

end Script

end ScopeLint
