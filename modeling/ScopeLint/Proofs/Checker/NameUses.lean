import ScopeLint.Proofs.Checker.Confinement
import ScopeLint.Proofs.Checker.Overlooked
import ScopeLint.Proofs.Checker.ScopeCensus
import ScopeLint.Proofs.Checker.UnusedImports

/-! # Uses of names

Every name that is loaded somewhere in a tree is dispatched, unless it is overlooked, and an import
that it finds is used from then on. -/
namespace ScopeLint

open List

structure NodeOf.Loads (n : Node) (name : String) : Prop where
  kind : n.kind = "Name"
  id : n.get "id" = .ok (.text name)
  context : ∃ context, n.get "ctx" = .ok context ∧ context.isKind "Load" = true

section Dispatch

variable {cfg : Setup} {next : Nat} {s t : State} {n m : Node}

/-- Of a tree without shared nodes, those nodes have been dispatched that have a mark. -/
theorem State.Charted.mem_dispatched_iff (hnum : cfg.Numbered next) (hs : s.Charted cfg)
    (hn : n ∈ cfg.root.nodes) : n ∈ s.dispatched ↔ (s.mark? n).isSome = true := by
  constructor
  · intro hmem
    obtain ⟨⟨id, k⟩, hmark, hnode⟩ := mem_filterMap.mp hmem
    obtain ⟨parent, -, hfind⟩ := Option.bind_eq_some_iff.mp hnode
    have hid : n.id = id := by simpa using find?_some hfind
    rw [State.mark?, lookup_isSome_iff]
    exact ⟨(id, k), hmark, by simp [hid]⟩
  · intro hsome
    obtain ⟨k, hk⟩ := Option.isSome_iff_exists.mp hsome
    obtain ⟨y, hy, hnode, hlevel, rfl, -⟩ := hs.marked n hn k hk
    have hsub {x : Spot} (hx : Spot.Placed cfg x) {a : Node} (ha : a ∈ x.node.nodes) :
        a ∈ cfg.root.nodes := (NodeOf.sublist_of_mem_nodes cfg.root hx.node_mem).subset ha
    cases hy with
    | refl => cases hlevel
    | @tail x _ hx hy =>
      have hbelow := Spot.mem_below_of_mem_steps hy y.node.self_mem_nodes
      have hmem : y.node ∈ x.node.nodes := by
        rw [x.node.nodes_eq]
        exact mem_cons_of_mem _ hbelow
      have hsome : (x.node.nodes.find? (·.id == n.id)).isSome = true :=
        find?_isSome.mpr ⟨y.node, hmem, by simp [hnode]⟩
      obtain ⟨m, hm⟩ := Option.isSome_iff_exists.mp hsome
      have hmn : m = n := hnum.distinct.eq_of_id (hsub hx (mem_of_find?_eq_some hm)) hn
        (by simpa using find?_some hm)
      obtain ⟨newer, older, hmarks, -⟩ := lookup_eq_some_iff.mp hk
      refine mem_filterMap.mpr ⟨(n.id, ⟨y.level, y.ancestors⟩), by simp [hmarks], ?_⟩
      rw [Mark.node?, Spot.ancestors_of_mem_steps hy, Spot.lineage, head?_cons,
        Option.bind_some, hm, hmn]

/-- Whether the node is visited in its place in the tree or is not of the tree. -/
def Setup.Among (cfg : Setup) (next : Nat) (n : Node) : Prop :=
  n.FreshFrom next ∨ ∃ x, cfg.Visits x ∧ x.node = n

theorem NodeOf.FreshFrom.part (h : n.FreshFrom next) (hm : m ∈ n.nodes) : m.FreshFrom next :=
  fun a ha => h a ((NodeOf.sublist_of_mem_nodes n hm).subset ha)

theorem Setup.Among.visited (h : cfg.Among next n) (hm : .node m ∈ n.visited cfg.dialect) :
    cfg.Among next m := by
  rcases h with hfresh | ⟨x, hx, rfl⟩
  · refine .inl (hfresh.part ?_)
    rw [n.nodes_eq]
    exact mem_cons_of_mem _ (NodeOf.nodes_subset_of_regions (mem_append_left _ hm)
      m.self_mem_nodes)
  · exact .inr (hx.exists_of_visited hm)

theorem Setup.confines_among (cfg : Setup) (next : Nat) : cfg.Confines next (cfg.Among next) where
  taken := fun n m hn hm => hn.visited (mem_append_left _ hm)
  deferred := by
    intro n m hn hfunction hm
    exact hn.visited (mem_append_right _ (by rwa [hfunction]))
  fresh := fun n hfresh _ m hm => .inl (hfresh.part (NodeOf.mem_nodes_of_mem_children hm))

namespace Check

theorem run_of_explore (h : explore cfg (State.initial next) = .ok () s) : Run cfg next s := by
  obtain ⟨_, r, hwalk, hfunctions⟩ := bind_apply_eq_ok.mp h
  have hstrokes : Strokes cfg .functions r s :=
    (strokes_drainWith (fun _ _ _ hv => follows_visit hv) .functions r).ok hfunctions
  exact (Run.walk (course_of_walk hwalk)).strokes hstrokes

/-- What has been done before a node is handled is still there at the end. -/
theorem Handles.lasts_before {x : Site} {fuel : Nat} {r u : State}
    (h : Handles cfg next t x fuel r u) : r.Lasts t := by
  have hcourse : Course cfg x.node (x.node.handed cfg.dialect) r u :=
    (follows_handleNode fun _ hv => follows_visitWithin fuel hv).ok h.handled
  exact hcourse.lasts.trans h.lasts

/-- In a run that gets through, those nodes of the tree are dispatched that are visited in it. -/
theorem mem_dispatched_iff_visits (hnum : cfg.Numbered next)
    (h : run cfg (State.initial next) = .ok () t) (hn : n ∈ cfg.root.nodes) :
    n ∈ t.dispatched ↔ ∃ x, cfg.Visits x ∧ x.node = n := by
  obtain ⟨s, hexplore, -, hheard, -⟩ := hears_of_run h
  have hdispatched : t.dispatched = s.dispatched := by
    rw [State.dispatched, hheard.marks_eq, State.dispatched]
  have hcharted := (run_of_explore hexplore).charted hnum
  rw [hdispatched, hcharted.mem_dispatched_iff hnum hn]
  constructor
  · intro hsome
    obtain ⟨k, hk⟩ := Option.isSome_iff_exists.mp hsome
    obtain ⟨newer, older, hmarks, -⟩ := lookup_eq_some_iff.mp hk
    have hconfined := confined_explore (cfg.confines_among next)
      (fun m hm => .inr (Setup.exists_visits_of_child hm)) hexplore
    obtain ⟨m, hm, hid⟩ := hconfined.marks (n.id, k) (by simp [hmarks])
    dsimp only at hid
    rcases hm with hfresh | ⟨x, hx, rfl⟩
    · have hlow := hfresh m m.self_mem_nodes
      have hhigh := hnum.bounded n hn
      omega
    · exact ⟨x, hx, hnum.distinct.eq_of_id hx.mem_nodes hn hid⟩
  · rintro ⟨x, hx, rfl⟩
    obtain ⟨fuel, r, u, hhandles⟩ := exists_handles hexplore hx
    obtain ⟨k, hk, -⟩ := Option.bind_eq_some_iff.mp hhandles.parent
    exact hhandles.lasts_before.remembers x.node (by rw [hk]; rfl)

end Check

end Dispatch

variable {n : Node} {d : Dialect}

/-- Events during which a binding stays are among those during which it stays in the end. -/
theorem Stay.suffix {id : ScopeId} {key : Datum.Key} {later since during : List Event}
    {ouster : Option Event} (h : Stay id key (later ++ since) during ouster)
    (hsince : ∀ e ∈ since, e.ousts id key = false) : since <:+ during := by
  generalize hsplit : later ++ since = events at h
  cases h with
  | on _ => exact ⟨later, hsplit⟩
  | @left e during rest he _ =>
    have hnot : e ∉ since := by
      intro hmem
      rw [hsince e hmem] at he
      cases he
    rcases append_eq_append_iff.mp hsplit with ⟨more, -, hmore⟩ | ⟨more, -, hmore⟩
    · exact absurd (hmore ▸ mem_append_right _ mem_cons_self) hnot
    · cases more with
      | nil =>
        have hsame : e :: during = since := hmore
        exact absurd (hsame ▸ mem_cons_self) hnot
      | cons x more =>
        obtain ⟨-, rfl⟩ := cons.inj hmore
        exact suffix_append _ _

theorem NodeOf.Loads.nameOf? {name : String} (h : n.Loads name) (hname : name ≠ "") :
    (Value.node n).nameOf? = some (.text name) := by
  have htruthy : (Value.text name).truthy = true := by simpa [Value.truthy] using hname
  simp [Value.nameOf?, Value.nameOf, Value.field?, NodeOf.field?_of_get h.id, htruthy,
    Value.datum]

theorem NodeOf.Loads.isPhrase {name : String} (h : n.Loads name)
    (hformed : n.isFormed d = true) : n.isPhrase d = true := by
  have htable : ∀ d : Dialect, ∀ p ∈ d.grammar, p.kind = "Name" → p.category = .expression := by
    decide
  obtain ⟨p, hp⟩ := NodeOf.exists_madeBy hformed
  simp [NodeOf.isPhrase, hp.categoryOf_eq, htable d p hp.mem (hp.kind_eq.trans h.kind)]

theorem NodeOf.Loads.name_ne {name : String} (h : n.Loads name)
    (hformed : n.isFormed d = true) : name ≠ "" := by
  obtain ⟨s, hs, hne⟩ :=
    NodeOf.exists_identifier hformed "id" (NodeOf.hasField_of_kind h.kind (by decide))
  cases h.id.symm.trans hs
  exact hne

namespace Check

variable {cfg : Setup} {next fuel : Nat} {t r u : State} {x : Site} {name : String}

theorem exists_load {n : Node} {below : Visit} (hloads : n.Loads name)
    (h : handleNode cfg below n r = .ok () u) :
    ∃ v, load cfg (.node n) r = .ok () v ∧ noteLocals n v = .ok () u := by
  have hrule : ruleFor? n = .ok .name := by rw [ruleFor?, hloads.kind, NodeOf.of?_name]
  obtain ⟨context, hcontext, hkind⟩ := hloads.context
  obtain ⟨rule, hrule', happly⟩ := lift_bind_eq_ok.mp h
  cases hrule.symm.trans hrule'
  obtain ⟨context', hcontext', happly⟩ := lift_bind_eq_ok.mp happly
  cases hcontext.symm.trans hcontext'
  rw [hkind, Bool.true_or, if_pos rfl] at happly
  obtain ⟨_, v, hload, hlocals⟩ := bind_apply_eq_ok.mp happly
  exact ⟨v, hload, hlocals⟩

theorem Handles.load (h : Handles cfg next t x fuel r u) (hloads : x.node.Loads name) :
    ∃ v, load cfg (.node x.node) r = .ok () v ∧ v.history <:+ t.history := by
  obtain ⟨v, hload, hlocals⟩ := exists_load hloads h.handled
  obtain ⟨es, hes, -⟩ := (((told_noteLocals x.node).ends cfg).ok hlocals).notes
  exact ⟨v, hload, List.IsSuffix.trans ⟨es, hes.symm⟩ h.lasts.history⟩

theorem Handles.orderly (h : Handles cfg next t x fuel r u) : r.Orderly := by
  obtain ⟨depth, s, hrun, hcut⟩ := h.moment r .here
  exact (hcut.orderly hrun.orderly).of_eq rfl rfl (List.Subset.refl _) (fun _ => rfl) id

/-- An import that is in force when a name is loaded and finds it is used. -/
theorem meets_used_of_load {id : ScopeId} {key : Datum.Key} {during earlier since : List Event}
    {m : Node} {b : Binding} {use : Use} (hin : InForce r.history id key during m b earlier)
    (ht : t.history = since ++ .loaded id key use :: r.history) :
    ∃ later, t.history = later ++ .bound id key m b :: earlier ∧
      Meets t later (.bound id key m b) earlier .used := by
  refine ⟨since ++ .loaded id key use :: during, by simp [ht, hin.split], ?_⟩
  obtain ⟨stayed, ouster, hstay⟩ :=
    Stay.exists_stay id key (since ++ .loaded id key use :: during)
  have hsuffix := hstay.suffix (forall_mem_cons.mpr ⟨rfl, hin.stays⟩)
  exact .used hstay (.inr ⟨use, hsuffix.subset mem_cons_self⟩)

/-- In a run over a tree of the grammar that gets through, a name that is loaded somewhere in the tree
is dispatched exactly if it is not overlooked. Then it is loaded at some moment of the run, and this
is on record if it finds the name bound in a scope; and what is in force there, such as an import, is
used in the end. Reported as unused are imports that are left over, and no others. -/
theorem load_dispatched_unless_overlooked (cfg : Setup) (next : Nat) (t : State)
    (hroot : cfg.root.Conforms cfg.dialect) (hnum : cfg.Numbered next)
    (h : run cfg (State.initial next) = .ok () t) (n : Node) (name : String)
    (hn : n ∈ cfg.root.nodes) (hloads : n.Loads name) :
    (n ∈ t.dispatched ↔ ¬ cfg.Overlooks n) ∧
    (n ∈ t.dispatched → ∃ r u depth, cfg.Reaches next { r with depth } ∧
      load cfg (.node n) r = .ok () u ∧ u.history <:+ t.history ∧
      ∀ id, r.Finds (.text name) id →
        (∃ top, u.history = .loaded id (.text name) ⟨top, .node n⟩ :: r.history) ∧
        ∀ during m b earlier, InForce r.history id (.text name) during m b earlier →
          ∃ later, t.history = later ++ .bound id (.text name) m b :: earlier ∧
            Meets t later (.bound id (.text name) m b) earlier .used) ∧
    ∀ args, .reported .unusedImport args ∈ t.history →
      (∃ r ∈ cfg.remarked, r.event = .reported .unusedImport args) ∨
      ∃ later id key m b earlier d, t.history = later ++ .bound id key m b :: earlier ∧
        Meets t later (.bound id key m b) earlier .leftOver ∧ args = [d, b.name] ∧ d.IsOf m := by
  have hvisits := mem_dispatched_iff_visits hnum h hn
  have hformed := hroot.formed n hn
  refine ⟨?_, ?_, fun args => leftOver_of_reported h⟩
  · rw [hvisits]
    constructor
    · rintro ⟨x, hx, rfl⟩
      exact hx.not_overlooks hroot hnum.distinct
    · exact Setup.exists_visits_of_phrase hroot hnum.distinct (hloads.isPhrase hformed) hn
  · intro hdispatched
    obtain ⟨x, hx, rfl⟩ := hvisits.mp hdispatched
    obtain ⟨s, hexplore, -, hhears, -⟩ := hears_of_run h
    obtain ⟨fuel, r, u, hhandles⟩ := exists_handles hexplore hx
    obtain ⟨v, hload, hsuffix⟩ := hhandles.load hloads
    obtain ⟨depth, hreaches⟩ := hhandles.moment r .here
    obtain ⟨es, hes, -⟩ := hhears.notes
    have hv : v.history <:+ t.history := hsuffix.trans ⟨es, hes.symm⟩
    refine ⟨r, v, depth, hreaches, hload, hv, fun id hfinds => ?_⟩
    obtain ⟨top, outer, hstack⟩ := hhandles.orderly.exists_stack
    have hfound : load cfg (.node x.node) r =
        .ok () (r.withUse id (.text name) ⟨top, .node x.node⟩) :=
      load_of_finds hhandles.orderly hstack (hloads.nameOf? (hloads.name_ne hformed)) rfl hfinds
    cases hload.symm.trans hfound
    refine ⟨⟨top, rfl⟩, fun during m b earlier hin => ?_⟩
    obtain ⟨since, hsince⟩ := hv
    exact meets_used_of_load hin hsince.symm

end Check

namespace Sample

def loaded (id : Nat) (line : Int) (name : String) : Node :=
  ⟨id, "Name", some (.of line 0), [("id", .text name), ("ctx", .node ⟨id + 1, "Load", none, []⟩)]⟩

theorem loads_loaded (id : Nat) (line : Int) (name : String) : (loaded id line name).Loads name :=
  ⟨rfl, rfl, _, rfl, rfl⟩

theorem ok_of_finishes {act : Check Unit} (h : finishes act s = true) :
    act s = .ok () (Check.after act s) := by
  obtain ⟨t, ht⟩ := exists_of_finishes h
  simp [Check.after, ht]

def pass (line : Int) : Value := .node ⟨0, "Pass", some (.of line 0), []⟩

/-- The only use of an import is the annotation of a starred parameter, at the node 6. -/
def annotated : Setup :=
  setup [importName 1 "a", .node ⟨0, "FunctionDef", some (.of 2 0), [("name", .text "f"),
    ("args", .node ⟨0, "arguments", none, [("args", .list []),
      ("vararg", .node ⟨0, "arg", none, [("arg", .text "xs"), ("annotation", name 2 "a" "Load")]⟩),
      ("kwonlyargs", .list []), ("kw_defaults", .list []), ("kwarg", .null), ("defaults", .list [])]⟩),
    ("body", .list [pass 2]), ("decorator_list", .list []), ("returns", .null)]⟩]

/-- The only use of an import is in the starred bases of a class, at the node 4. -/
def starredBases : Setup :=
  setup [importName 1 "bases", .node ⟨0, "ClassDef", some (.of 2 0), [("name", .text "A"),
    ("bases", .list []), ("keywords", .list []), ("starargs", name 2 "bases" "Load"),
    ("kwargs", .null), ("body", .list [pass 2]), ("decorator_list", .list [])]⟩]

def tellsUnused (t : State) : Bool :=
  t.history.any fun e => match e with
    | .reported k _ => k.hasCode "E101"
    | _ => false

end Sample

namespace Check

open Sample

/-- The annotation is dispatched, and the import is not reported. -/
theorem load_dispatched_unless_overlooked_annotated :
    annotated.root.Conforms annotated.dialect ∧ loaded 6 2 "a" ∈ annotated.root.nodes ∧
    ∃ t, run annotated (State.initial annotated.root.size) = .ok () t ∧
      loaded 6 2 "a" ∈ t.dispatched ∧ tellsUnused t = false := by
  have hroot : annotated.root.Conforms annotated.dialect :=
    ⟨by decide +kernel, by decide +kernel⟩
  have hmem : loaded 6 2 "a" ∈ annotated.root.nodes := List.mem_of_getElem? (i := 6) rfl
  have hends : endsWith annotated (fun t => !tellsUnused t) = true := by decide +kernel
  obtain ⟨t, hrun, htold⟩ := endsWith_eq_true hends
  have hnum : annotated.Numbered annotated.root.size := ⟨by decide +kernel, by decide +kernel⟩
  obtain ⟨hdispatched, -⟩ := load_dispatched_unless_overlooked annotated annotated.root.size t hroot
    hnum hrun (loaded 6 2 "a") "a" hmem (loads_loaded 6 2 "a")
  have hnone : ∀ k ∈ annotated.root.nodes, (k.overlooked annotated.dialect).isEmpty = true := by
    decide +kernel
  refine ⟨hroot, hmem, t, hrun, hdispatched.mpr ?_, by simpa using htold⟩
  rintro ⟨k, hk, v, hv, -⟩
  rw [List.isEmpty_iff.mp (hnone k hk)] at hv
  cases hv

/-- The name in the starred bases is not dispatched, and the import is reported. -/
theorem starred_base_not_dispatched :
    starredBases.root.Conforms starredBases.dialect ∧
    loaded 4 2 "bases" ∈ starredBases.root.nodes ∧ (loaded 4 2 "bases").Loads "bases" ∧
    ∃ t, run starredBases (State.initial starredBases.root.size) = .ok () t ∧
      loaded 4 2 "bases" ∉ t.dispatched ∧ tellsUnused t = true := by
  have hends : endsWith starredBases (fun t =>
      t.dispatched.all (·.id != 4) && tellsUnused t) = true := by decide +kernel
  obtain ⟨t, hrun, htest⟩ := endsWith_eq_true hends
  obtain ⟨hnot, htold⟩ := Bool.and_eq_true_iff.mp htest
  refine ⟨⟨by decide +kernel, by decide +kernel⟩, List.mem_of_getElem? (i := 4) rfl,
    loads_loaded 4 2 "bases", t, hrun, fun hmem => ?_, htold⟩
  simpa [loaded] using List.all_eq_true.mp hnot _ hmem

end Check

end ScopeLint
