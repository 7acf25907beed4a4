import ScopeLint.Proofs.Checker.Climb
import ScopeLint.Proofs.Checker.Itinerary
import ScopeLint.Proofs.Grammar

/-! # Steps that cannot fail

A state of a check over a tree of the grammar is sound: what the scopes hold and what the marks name
are nodes of the grammar, and the reports about them can be written. From a sound state no step on
names fails, and it leads to a sound state. -/
namespace ScopeLint

open List

variable {cfg : Setup} {k : Kind} {args : List Datum} {s : State} {kinds : List Kind} {d : Dialect}
  {n : Node}

/-- A node as the subject or argument of a diagnostic, with a place. -/
def Datum.IsPlaced (d : Datum) : Prop :=
  ∃ kind id line column,
    d = .object kind (some id) [("lineno", .int line), ("col_offset", .int column)]

namespace Kind

/-- The arguments that a diagnostic of the kind can be written with. -/
inductive Suits : Kind → List Datum → Prop where
  | bare : Suits bareExcept []
  | one {k : Kind} (x : Datum) : k ∈ [undefinedName, importStarUsed, duplicateArgument,
      lateFutureImport, unusedVariable, undefinedExport] → Suits k [x]
  | hidden {k : Kind} {old : Datum} (x : Datum) : k ∈ [redefinedWhileUnused, redefinedInListComp,
      importShadowedByLoopVar, undefinedLocal] → old.IsPlaced → Suits k [x, old]
  | counted {k : Kind} (x : Datum) (count : Int) : k ∈ [tooManyArguments, tooFewArguments] →
      Suits k [x, .int count]
  | pair {k : Kind} (x y : Datum) : k ∈ [unexpectedArgument, multipleValues, needKwOnlyArgument] →
      Suits k [x, y]
  | imported (name : String) : Suits unusedImport [.text name]

/-- A template can be filled if its characters can. Texts are not taken apart again: that is slow to
check. -/
theorem exists_fill_of_chars {cs : List Char} {values : Named}
    (h : (Template.fillWithin args values 2 .unset cs).isOk = true) :
    ∃ text, Template.fill (.text (String.ofList cs)) args values = .ok text := by
  simp only [Template.fill, String.toList_ofList]
  cases hfill : Template.fillWithin args values 2 .unset cs with
  | ok r => exact ⟨_, rfl⟩
  | error e =>
    rw [hfill] at h
    cases h

theorem Suits.fill_ok (h : k.Suits args) (values : Named) :
    (∃ text, Template.fill k.template args values = .ok text) ∧
      ∃ text, Template.fill k.keyword args values = .ok text := by
  cases h with
  | bare | imported => exact ⟨exists_fill_of_chars rfl, exists_fill_of_chars rfl⟩
  | one x hk =>
    simp only [mem_cons, not_mem_nil, or_false] at hk
    rcases hk with rfl | rfl | rfl | rfl | rfl | rfl <;>
      exact ⟨exists_fill_of_chars rfl, exists_fill_of_chars rfl⟩
  | hidden x hk hold =>
    obtain ⟨kind, id, line, column, rfl⟩ := hold
    -- one of the templates is written in two parts
    have hjoin : undefinedLocal.template = .text (String.ofList (_ ++ _)) :=
      congrArg Datum.text String.ofList_append.symm
    simp only [mem_cons, not_mem_nil, or_false] at hk
    rcases hk with rfl | rfl | rfl | rfl
    · exact ⟨exists_fill_of_chars rfl, exists_fill_of_chars rfl⟩
    · exact ⟨exists_fill_of_chars rfl, exists_fill_of_chars rfl⟩
    · exact ⟨exists_fill_of_chars rfl, exists_fill_of_chars rfl⟩
    · rw [hjoin]
      exact ⟨exists_fill_of_chars rfl, exists_fill_of_chars rfl⟩
  | counted x count hk =>
    simp only [mem_cons, not_mem_nil, or_false] at hk
    rcases hk with rfl | rfl <;> exact ⟨exists_fill_of_chars rfl, exists_fill_of_chars rfl⟩
  | pair x y hk =>
    simp only [mem_cons, not_mem_nil, or_false] at hk
    rcases hk with rfl | rfl | rfl <;>
      exact ⟨exists_fill_of_chars rfl, exists_fill_of_chars rfl⟩

theorem Suits.form_eq (h : k.Suits args) : k.form = .plain := by
  cases h with
  | bare | imported => rfl
  | one _ hk | hidden _ hk | counted _ _ hk | pair _ _ hk =>
    revert k
    decide

theorem Suits.compose_ok (h : k.Suits args) (filename : String) {loc : Datum} (hloc : loc.IsPlaced)
    (verbose : Datum) :
    ∃ d, k.compose (.text filename) (loc :: args) [("verbose", verbose)] = .ok d := by
  have hcompose : k.compose (.text filename) (loc :: args) [("verbose", verbose)] =
      k.about (.text filename) loc args [("verbose", verbose)] := by
    simp [compose, h.form_eq, bindArguments, others]
  obtain ⟨kind, id, line, column, rfl⟩ := hloc
  obtain ⟨⟨text, htext⟩, keyword, hkeyword⟩ := h.fill_ok
    [("verbose", verbose), ("filename", .text filename), ("lineno", .int line), ("col", .int column)]
  have htruthy : (Datum.object kind (some id)
    [("lineno", .int line), ("col_offset", .int column)]).truthy = true := rfl
  have hline : (Datum.object kind (some id)
    [("lineno", .int line), ("col_offset", .int column)]).member "lineno" = .ok (.int line) := rfl
  have hcolumn :
      (Datum.object kind (some id) [("lineno", .int line), ("col_offset", .int column)]).member
      "col_offset" = .ok (.int column) := rfl
  rw [hcompose]
  unfold about
  simp only [htruthy, hline, hcolumn, if_true, ok_bind, cons_append, nil_append, htext]
  split
  · rw [hkeyword]
    exact ⟨_, rfl⟩
  · exact ⟨_, rfl⟩

end Kind

def Value.IsPlaced (d : Dialect) (v : Value) : Prop := ∃ n, v = .node n ∧ n.IsPlaced d

/-- A binding of a text whose source and use have places. -/
structure Binding.Sound (d : Dialect) (b : Binding) : Prop where
  name : ∃ name, b.name = .text name
  source : b.source.IsPlaced d
  used : ∀ use, b.used = some use → use.node.IsPlaced d

def Scope.Sound (d : Dialect) (scope : Scope) : Prop := ∀ e ∈ scope.entries, e.binding.Sound d

/-- What a check needs that is not to fail: a tree of the grammar without doctests and remarks, and
lists of what is left out. -/
structure Setup.Plain (cfg : Setup) : Prop where
  root : cfg.root.Conforms cfg.dialect
  ignored : ∃ codes, cfg.ignored = .list codes
  ignoredLines : ∃ lines, cfg.ignoredLines = .list lines
  doctests : cfg.doctests = false
  remarks : cfg.remarks = []

structure Deferred.IsBody (cfg : Setup) (d : Deferred) : Prop where
  shift_eq : d.shift = none
  task_eq : ∃ x names, cfg.Visits x ∧ x.node.isFunction = true ∧ d.task = .body x.node names ∧
    ∀ name ∈ names, ∃ text, name = Datum.text text

/-- Nothing in the state can make a step on names fail. -/
structure State.Sound (cfg : Setup) (s : State) : Prop where
  orderly : s.Orderly
  moved_eq : s.moved = []
  shift_eq : s.shift = none
  ancestors : ∀ e ∈ s.marks, ∀ a ∈ e.2.ancestors, a.isFormed cfg.dialect = true
  entries : ∀ id, ∀ e ∈ s.entriesOf id, e.binding.Sound cfg.dialect
  bodies : ∀ i d, s.Entry .functions i d → d.IsBody cfg
  verdicts : ∀ i d, s.Entry .assignments i d →
    d.shift = none ∧ d.task = .assignments ∧ d.stack.head?.bind s.kindOf = some .function

namespace State.Sound

variable {t : State}

variable (h : s.Sound cfg)

include h

/-- A step that leaves the shape of the state as it is and puts nothing into scopes that is not
sound. -/
theorem fixed (hf : s.Fixed t)
    (hentries : ∀ id, ∀ e ∈ t.entriesOf id, e.binding.Sound cfg.dialect) : t.Sound cfg where
  orderly := h.orderly.alike hf.toAlike
  moved_eq := hf.moved_eq.trans h.moved_eq
  shift_eq := hf.shift_eq.trans h.shift_eq
  ancestors := hf.marks_eq ▸ h.ancestors
  entries := hentries
  bodies := fun i d ⟨entries, hq, hd⟩ => h.bodies i d ⟨entries, hf.functions_eq.symm.trans hq, hd⟩
  verdicts := fun i d ⟨entries, hq, hd⟩ => by
    rw [show t.kindOf = s.kindOf from funext hf.kindOf_eq]
    exact h.verdicts i d ⟨entries, hf.assignments_eq.symm.trans hq, hd⟩

theorem quiet (hq : s.Quiet t) : t.Sound cfg :=
  h.fixed ⟨hq.toAlike, hq.moved_eq⟩ fun id => hq.entriesOf_eq id ▸ h.entries id

theorem spoken (hs : s.Says kinds t) : t.Sound cfg :=
  h.fixed hs.fixed fun id => by
    rw [show t.entriesOf id = s.entriesOf id by simp [entriesOf, scope?, hs.scopes_eq]]
    exact h.entries id

theorem scope {id : ScopeId} {scope : Scope} (hscope : s.scope? id = some scope) :
    scope.Sound cfg.dialect := by
  have hentries := h.entries id
  rwa [entriesOf, hscope] at hentries

theorem binding {id : ScopeId} {key : Datum.Key} {b : Binding}
    (hb : s.binding? id key = some b) : b.Sound cfg.dialect := by
  obtain ⟨scope, hscope, hfind⟩ := Option.bind_eq_some_iff.mp hb
  obtain ⟨e, he, rfl⟩ := Option.map_eq_some_iff.mp hfind
  exact h.scope hscope e (mem_of_find?_eq_some he)

end State.Sound

namespace Check

variable {α β : Type}

/-- From a state of which `I` holds the step gets through to one of which it holds again, with an
answer of which `P` holds. -/
def Sure (I : State → Prop) (act : Check α) (P : α → Prop) : Prop :=
  ∀ s, I s → ∃ a t, act s = .ok a t ∧ P a ∧ I t

/-- From a sound state the step gets through to a sound state. -/
abbrev Safe (cfg : Setup) (act : Check α) : Prop := Sure (State.Sound cfg) act fun _ => True

section Combinators

variable {I : State → Prop} {x : Check α} {f : α → Check β} {P : α → Prop} {Q : β → Prop}

theorem sure_pure {a : α} (h : P a) : Sure I (pure a) P := fun s hs => ⟨a, s, rfl, h, hs⟩

theorem safe_pure (a : α) : Sure I (pure a) fun _ => True := sure_pure trivial

theorem Sure.bind (hx : Sure I x P) (hf : ∀ a, P a → Sure I (f a) Q) : Sure I (x >>= f) Q := by
  intro s hs
  obtain ⟨a, t, ha, hp, ht⟩ := hx s hs
  obtain ⟨b, u, hb, hq, hu⟩ := hf a hp t ht
  exact ⟨b, u, bind_apply_eq_ok.mpr ⟨a, t, ha, hb⟩, hq, hu⟩

theorem sure_get : Sure I get I := fun s hs => ⟨s, s, rfl, hs, hs⟩

theorem sure_lift_bind {y : Except Fault α} {a : α} (hy : y = .ok a) (hf : Sure I (f a) Q) :
    Sure I (lift y >>= f) Q := by
  subst hy
  exact hf

theorem safe_forM {g : α → Check Unit} {xs : List α} (h : ∀ a ∈ xs, Sure I (g a) fun _ => True) :
    Sure I (xs.forM g) fun _ => True := by
  induction xs with
  | nil => exact safe_pure ()
  | cons a rest ih =>
    obtain ⟨hfirst, hrest⟩ := forall_mem_cons.mp h
    exact hfirst.bind fun _ _ => ih hrest

theorem safe_of_speaks (hspeaks : Speaks kinds x) (h : ∀ s, s.Sound cfg → ∃ a t, x s = .ok a t) :
    Safe cfg x := by
  intro s hs
  obtain ⟨a, t, ha⟩ := h s hs
  exact ⟨a, t, ha, trivial, hs.spoken (hspeaks.ok ha)⟩

theorem safe_of_quiet (hquiet : Quiet x) (h : ∀ s, s.Sound cfg → ∃ a t, x s = .ok a t) :
    Safe cfg x := by
  intro s hs
  obtain ⟨a, t, ha⟩ := h s hs
  exact ⟨a, t, ha, trivial, hs.quiet (hquiet.ok ha)⟩

end Combinators

theorem sure_current : Sure (State.Sound cfg) current fun found => found.2.Sound cfg.dialect := by
  intro s hs
  obtain ⟨found, hfound⟩ := current_ok_of_orderly hs.orderly
  obtain ⟨-, -, hscope⟩ := current_eq_ok hfound
  exact ⟨found, s, hfound, hs.scope hscope, hs⟩

theorem exists_datum {v : Value} (h : v.IsPlaced d) (hmoved : s.moved = []) :
    ∃ loc, datum v s = .ok loc s ∧ loc.IsPlaced := by
  obtain ⟨n, rfl, hn⟩ := h
  obtain ⟨line, column, hposition⟩ := hn.position
  have hplace : s.position? n = some (.of line column) := by
    simp [State.position?, hmoved, hposition]
  have hdatum : datum (.node n) s = .ok (.object n.kind (some n.id)
      [("lineno", .int line), ("col_offset", .int column)]) s := by
    simp [datum, hplace, Position.of]
  exact ⟨_, hdatum, _, _, _, _, rfl⟩

theorem sure_datum {v : Value} (h : v.IsPlaced cfg.dialect) :
    Sure (State.Sound cfg) (datum v) Datum.IsPlaced := by
  intro s hs
  obtain ⟨loc, hdatum, hloc⟩ := exists_datum h hs.moved_eq
  exact ⟨loc, s, hdatum, hloc, hs⟩

theorem safe_record (e : Event) : Safe cfg (record e) := by
  intro s hs
  refine ⟨(), _, rfl, trivial, hs.fixed ((steady_record e).ok rfl) fun id => hs.entries id⟩

theorem safe_updateScope (id : ScopeId) {f : Scope → Scope}
    (hkind : ∀ scope, (f scope).kind = scope.kind)
    (hsound : ∀ scope, scope.Sound cfg.dialect → (f scope).Sound cfg.dialect) :
    Safe cfg (updateScope id f) := by
  intro s hs
  refine ⟨(), _, rfl, trivial, hs.fixed ((steady_updateScope id hkind).ok rfl) fun other => ?_⟩
  simp only [State.entriesOf, State.scope?, Array.getElem?_modify]
  split
  · rename_i hid
    subst hid
    cases hscope : s.scopes[id]? with
    | none => simp
    | some scope => exact hsound scope (hs.scope hscope)
  · exact hs.entries other

section Reports

variable (hcfg : cfg.Plain)
include hcfg

variable {subject : Value}

/-- While no node has been moved, a report about nodes of the grammar can be written. -/
theorem exists_report (hsubject : subject.IsPlaced cfg.dialect) (hargs : k.Suits args)
    (hmoved : s.moved = []) : ∃ t, report cfg k subject args s = .ok () t := by
  obtain ⟨codes, hcodes⟩ := hcfg.ignored
  obtain ⟨lines, hlines⟩ := hcfg.ignoredLines
  obtain ⟨loc, hdatum, hloc⟩ := exists_datum hsubject hmoved
  have hreport : report cfg k subject args s = reportWith cfg k (loc :: args) [] s := by
    rw [report, bind_apply, hdatum]
  obtain ⟨d, hd⟩ := hargs.compose_ok cfg.filename hloc cfg.verbose
  have hignored : ∃ b, isIgnored cfg k = .ok b := by
    simp only [isIgnored, hcodes, Datum.lists, ok_bind]
    split
    · exact ⟨_, rfl⟩
    · split <;> exact ⟨_, rfl⟩
  obtain ⟨ignored, hignored⟩ := hignored
  rw [hreport]
  cases ignored with
  | true => exact ⟨_, by simp [reportWith, hignored, lift]; rfl⟩
  | false =>
    by_cases hline : Datum.among lines d.line = true
    · exact ⟨_, by simp [reportWith, hignored, hd, hlines, Datum.lists, lift, hline]; rfl⟩
    · exact ⟨_, by simp [reportWith, hignored, hd, hlines, Datum.lists, lift, hline]; rfl⟩

theorem safe_report (hsubject : subject.IsPlaced cfg.dialect) (hargs : k.Suits args) :
    Safe cfg (report cfg k subject args) := by
  have hspeaks : Speaks [k] (report cfg k subject args) :=
    (told_report mem_cons_self _ _).ends cfg
  exact safe_of_speaks hspeaks fun s hs => ⟨(), exists_report hcfg hsubject hargs hs.moved_eq⟩

end Reports

end Check

namespace State

theorem exists_forks {a : Node} (h : a.isFormed d = true) :
    ∃ branches, forks d a = .ok branches ∧ ∀ v ∈ branches, ∃ items, v.items = .ok items := by
  obtain ⟨p, hp⟩ := NodeOf.exists_madeBy h
  have htwo : d ≠ .twoSeven := by
    rintro rfl
    cases hp.mem
  have hlist {kind name : String} (hkind : a.kind = kind) (content : Content)
      (hf : ∀ d : Dialect, ∀ p ∈ d.grammar, p.kind = kind → .many name content ∈ p.fields) :
      ∃ items, a.get name = .ok (.list items) := by
    obtain ⟨items, hitems, -⟩ :=
      NodeOf.exists_list h name content (NodeOf.hasField_of_kind hkind hf)
    exact ⟨items, hitems⟩
  unfold forks
  by_cases hif : a.kind = "If"
  · obtain ⟨body, hbody⟩ : ∃ items, a.get "body" = .ok (.list items) :=
      hlist hif Grammar.statement (by decide)
    obtain ⟨orelse, horelse⟩ : ∃ items, a.get "orelse" = .ok (.list items) :=
      hlist hif Grammar.statement (by decide)
    refine ⟨[.list body, .list orelse], by rw [if_pos hif, hbody, horelse]; rfl, ?_⟩
    simp [Value.items]
  · rw [if_neg hif]
    by_cases htry : a.kind = d.tryKind
    · have hkind : a.kind = "Try" := by
        rw [htry]
        cases d <;> first | rfl | cases hp.mem
      obtain ⟨body, hbody⟩ : ∃ items, a.get "body" = .ok (.list items) :=
        hlist hkind Grammar.statement (by decide)
      obtain ⟨orelse, horelse⟩ : ∃ items, a.get "orelse" = .ok (.list items) :=
        hlist hkind Grammar.statement (by decide)
      obtain ⟨handlers, hhandlers⟩ : ∃ items, a.get "handlers" = .ok (.list items) :=
        hlist hkind (.node .handler) (by decide)
      refine ⟨.list (body ++ orelse) :: handlers.map fun h => .list [h], ?_, ?_⟩
      · rw [if_pos htry, hbody, horelse, NodeOf.itemsOf, hhandlers]
        rfl
      · simp [Value.items]
    · refine ⟨[], ?_, by simp⟩
      simp [htry, htwo]
      rfl

theorem Sound.lineage (h : s.Sound cfg) {n a : Node} (hn : n.isFormed cfg.dialect = true)
    (ha : a ∈ s.lineage n) : a.isFormed cfg.dialect = true := by
  unfold State.lineage at ha
  rcases mem_cons.mp ha with rfl | ha
  · exact hn
  · split at ha
    · rename_i m hm
      obtain ⟨newer, older, hmarks, -⟩ := lookup_eq_some_iff.mp hm
      exact h.ancestors (n.id, m) (by simp [hmarks]) a ha
    · cases ha

end State

namespace Check

variable (hcfg : cfg.Plain)
include hcfg

theorem safe_differentForks {v : Value} (hn : n.isFormed cfg.dialect = true)
    (hv : v.IsPlaced cfg.dialect) : Safe cfg (differentForks cfg n v) := by
  obtain ⟨m, rfl, -⟩ := hv
  have hspeaks : Speaks [] (differentForks cfg n (.node m)) :=
    (told_differentForks n _).ends cfg
  refine safe_of_speaks hspeaks fun s hs => ?_
  have hapart : ∃ apart, s.differentForks cfg n m = .ok apart := by
    unfold State.differentForks
    split
    · rename_i a ha
      have hformed : a.isFormed cfg.dialect = true := by
        rcases State.mem_of_meetWithin ha with rfl | ha
        · exact hcfg.root.formed _ (NodeOf.self_mem_nodes _)
        · exact hs.lineage hn ha
      obtain ⟨branches, hbranches, hlists⟩ := State.exists_forks hformed
      rw [hbranches, ok_bind]
      refine ⟨_, anyM_eq_ok (p := fun branch => s.onFork cfg.root a n m (branch.items.toOption.getD []))
        (map_id branches).symm fun branch hbranch => ?_⟩
      obtain ⟨items, hitems⟩ := hlists branch hbranch
      rw [id, hitems]
      rfl
    · exact ⟨false, rfl⟩
  obtain ⟨apart, hapart⟩ := hapart
  exact ⟨apart, _, by simp [differentForks, hapart, lift, record]; rfl⟩

section Bindings

variable (hn : n.IsPlaced cfg.dialect)
include hn

variable {existing : Option Binding}

theorem safe_reportHiddenIn (key : Datum.Key) (b : Binding) (id : ScopeId) :
    Safe cfg (reportHiddenIn cfg n key b id) := by
  refine sure_get.bind fun s hs => ?_
  split
  · rename_i old hold
    have hsource := (hs.binding hold).source
    split
    · refine (safe_differentForks hcfg hn.formed hsource).bind fun apart _ => ?_
      split
      · exact safe_pure _
      · refine (sure_datum hsource).bind fun d hd => ?_
        exact (safe_report hcfg ⟨n, rfl, hn⟩ (.hidden _ (by simp) hd)).bind fun _ _ => safe_pure _
    · exact safe_pure _
  · exact safe_pure _

theorem safe_reportHidden (key : Datum.Key) (b : Binding) (ids : List ScopeId) :
    Safe cfg (reportHidden cfg n key b ids) := by
  induction ids with
  | nil => exact safe_pure _
  | cons id rest ih =>
    refine (safe_reportHiddenIn hcfg hn key b id).bind fun hidden _ => ?_
    exact ih.bind fun _ _ => safe_pure _

theorem safe_reportListComp (b : Binding)
    (hexisting : ∀ old, existing = some old → old.Sound cfg.dialect) :
    Safe cfg (reportListComp cfg n b existing) := by
  unfold reportListComp
  split
  · have hsource := (hexisting _ rfl).source
    refine sure_get.bind fun s hs => ?_
    split
    · refine (safe_differentForks hcfg hn.formed hsource).bind fun apart _ => ?_
      split
      · refine (sure_datum hsource).bind fun d hd => ?_
        exact safe_report hcfg ⟨n, rfl, hn⟩ (.hidden _ (by simp) hd)
      · exact safe_pure _
    · exact safe_pure _
  · exact safe_pure _

theorem sure_keptDefinition? (hexisting : ∀ old, existing = some old → old.Sound cfg.dialect) :
    Sure (State.Sound cfg) (keptDefinition? cfg n existing) fun kept =>
      ∀ old, kept = some old → old.Sound cfg.dialect := by
  unfold keptDefinition?
  split
  · split
    · refine (safe_differentForks hcfg hn.formed (hexisting _ rfl).source).bind fun apart _ => ?_
      split
      · exact sure_pure fun _ h => nomatch h
      · exact sure_pure fun _ h => hexisting _ h
    · exact sure_pure fun _ h => nomatch h
  · exact sure_pure fun _ h => nomatch h

theorem safe_reportRebinding (key : Datum.Key) (b : Binding) (kind : ScopeKind)
    (hexisting : ∀ old, existing = some old → old.Sound cfg.dialect) :
    Safe cfg (reportRebinding cfg n key b kind existing) := by
  have hrest (hidden : Bool) : Safe cfg (do if !hidden then reportListComp cfg n b existing) := by
    split
    · exact safe_reportListComp hcfg hn b hexisting
    · exact safe_pure _
  unfold reportRebinding
  dsimp only
  split
  · refine sure_get.bind fun s hs => (safe_reportHidden hcfg hn key b s.stack).bind fun hidden _ => ?_
    exact hrest hidden
  · exact hrest false

end Bindings

omit hcfg in
theorem sound_insert {scope : Scope} {key : Datum.Key} {b : Binding} (hb : b.Sound cfg.dialect)
    (h : scope.Sound cfg.dialect) : (scope.insert key b).Sound cfg.dialect := by
  intro e he
  unfold Scope.insert at he
  dsimp only at he
  split at he
  · obtain ⟨old, hold, rfl⟩ := mem_map.mp he
    split
    · exact hb
    · exact h old hold
  · rcases mem_append.mp he with he | he
    · exact h e he
    · obtain rfl := mem_singleton.mp he
      exact hb

omit hcfg in
theorem sound_markUsed {scope : Scope} {key : Datum.Key} {use : Use}
    (huse : use.node.IsPlaced cfg.dialect) (h : scope.Sound cfg.dialect) :
    (scope.markUsed key use).Sound cfg.dialect := by
  intro e he
  obtain ⟨old, hold, rfl⟩ := mem_map.mp he
  obtain ⟨hname, hsource, hused⟩ := h old hold
  split
  · exact ⟨hname, hsource, fun _ h => Option.some.inj h ▸ huse⟩
  · exact ⟨hname, hsource, hused⟩

omit hcfg in
theorem sound_find? {scope : Scope} {key : Datum.Key} {b : Binding} (h : scope.Sound cfg.dialect)
    (hb : scope.find? key = some b) : b.Sound cfg.dialect := by
  obtain ⟨e, he, rfl⟩ := Option.map_eq_some_iff.mp hb
  exact h e (mem_of_find?_eq_some he)

theorem safe_bind (hn : n.IsPlaced cfg.dialect) {b : Binding} (hb : b.Sound cfg.dialect)
    (reportsHidden : Bool) : Safe cfg (bind cfg n b reportsHidden) := by
  obtain ⟨name, hname⟩ := hb.name
  refine sure_current.bind fun ⟨top, scope⟩ hscope => ?_
  refine sure_lift_bind (a := .text name) (by rw [hname]; rfl) ?_
  have hexisting (old : Binding) (hold : scope.find? (.text name) = some old) :
      old.Sound cfg.dialect := sound_find? hscope hold
  have hplace : Safe cfg (place cfg n (.text name) b top (scope.find? (.text name))) := by
    refine (sure_keptDefinition? hcfg hn hexisting).bind fun kept hkept => ?_
    split
    · refine (sure_datum (hkept _ rfl).source).bind fun d hd => ?_
      exact (safe_report hcfg ⟨n, rfl, hn⟩ (.hidden _ (by simp) hd)).bind fun _ _ => safe_record _
    · refine (safe_updateScope top ?_ fun _ => sound_insert hb).bind fun _ _ => safe_record _
      exact fun _ => rfl
  dsimp only
  split
  · exact (safe_reportRebinding hcfg hn _ b _ hexisting).bind fun _ _ => hplace
  · exact hplace

theorem safe_load {v : Value} (hv : v.IsPlaced cfg.dialect)
    (hname : ∀ name, v.nameOf? = some name → ∃ text, name = .text text) :
    Safe cfg (load cfg v) := by
  unfold load
  split
  · exact safe_pure _
  · rename_i name hsome
    obtain ⟨text, rfl⟩ := hname name hsome
    refine sure_get.bind fun s hs => ?_
    obtain ⟨visible, hvisible⟩ := hs.orderly.visibleScopes_ok
    refine sure_lift_bind hvisible (sure_lift_bind (a := .text text) rfl ?_)
    split
    · refine sure_current.bind fun ⟨top, scope⟩ _ => ?_
      refine (safe_updateScope _ ?_ ?_).bind fun _ _ => safe_record _
      · exact fun _ => rfl
      · exact fun _ => sound_markUsed hv
    · split
      · exact safe_pure _
      · split
        · exact safe_pure _
        · obtain ⟨b, hb⟩ := lists_of_orderly hs.orderly (.text "NameError")
          refine sure_lift_bind hb ?_
          split
          · exact safe_report hcfg hv (.one _ (by simp))
          · exact safe_pure _

theorem safe_reportUsedBefore (top : ScopeId) (scope : Scope) (key : Datum.Key) (name : Datum) :
    Safe cfg (reportUsedBefore cfg top scope key name) := by
  unfold reportUsedBefore
  split
  · refine sure_get.bind fun s hs => ?_
    split
    · rename_i use b hused
      obtain ⟨id, -, hid⟩ := exists_of_findSome?_eq_some hused
      split at hid
      · obtain ⟨old, hold, hid⟩ := Option.bind_eq_some_iff.mp hid
        obtain ⟨found, hfound, hid⟩ := Option.bind_eq_some_iff.mp hid
        split at hid
        · cases hid
          have hb := hs.binding hold
          refine (sure_datum hb.source).bind fun d hd => ?_
          exact safe_report hcfg (hb.used _ hfound) (.hidden _ (by simp) hd)
        · cases hid
      · cases hid
    · exact safe_pure _
  · exact safe_pure _

theorem exists_store (hn : n.IsPlaced cfg.dialect) (hs : s.Sound cfg)
    (hname : ∀ name, (Value.node n).nameOf? = some name → ∃ text, name = .text text ∧
      ∀ top scope, s.stack.head? = some top → s.scope? top = some scope →
        ∃ kind source, storeKind scope (s.parent? n) (.text text) n = .ok (kind, source) ∧
          source.IsPlaced cfg.dialect) : ∃ t, store cfg n s = .ok () t ∧ t.Sound cfg := by
  unfold store
  cases hsome : (Value.node n).nameOf? with
  | none => exact ⟨s, rfl, hs⟩
  | some name =>
    obtain ⟨text, rfl, hkind⟩ := hname name hsome
    obtain ⟨⟨top, scope⟩, hcurrent⟩ := current_ok_of_orderly hs.orderly
    obtain ⟨-, ⟨rest, hstack⟩, hfound⟩ := current_eq_ok hcurrent
    have hscope : scope.Sound cfg.dialect := hs.scope hfound
    obtain ⟨_, t, hreport, -, ht⟩ :=
      safe_reportUsedBefore hcfg top scope (.text text) (.text text) s hs
    obtain ⟨kind, source, hkind, hsource⟩ := hkind top scope (by rw [hstack]; rfl) hfound
    have hparent : t.parent? n = s.parent? n := by
      simp [State.parent?, State.mark?, ((told_reportUsedBefore _ _ _ _).ok hreport).alike.marks_eq]
    have hb : Binding.Sound cfg.dialect
        ⟨.text text, kind, source, (scope.find? (.text text)).bind (·.used)⟩ := by
      refine ⟨⟨text, rfl⟩, hsource, fun use huse => ?_⟩
      obtain ⟨old, hold, huse⟩ := Option.bind_eq_some_iff.mp huse
      exact (sound_find? hscope hold).used use huse
    obtain ⟨_, u, hbind, -, hu⟩ := safe_bind hcfg hn hb true t ht
    refine ⟨u, ?_, hu⟩
    refine bind_apply_eq_ok.mpr ⟨_, _, hcurrent, lift_bind_eq_ok.mpr ⟨.text text, rfl, ?_⟩⟩
    refine bind_apply_eq_ok.mpr ⟨_, _, hreport, bind_apply_eq_ok.mpr ⟨t, t, rfl, ?_⟩⟩
    exact lift_bind_eq_ok.mpr ⟨(kind, source), by rw [hparent]; exact hkind, hbind⟩

theorem safe_delete (hn : n.IsPlaced cfg.dialect)
    (hname : ∀ name, (Value.node n).nameOf? = some name → ∃ text, name = .text text) :
    Safe cfg (delete cfg n) := by
  unfold delete
  split
  · exact safe_pure _
  · rename_i name hsome
    obtain ⟨text, rfl⟩ := hname name hsome
    refine sure_current.bind fun ⟨top, scope⟩ _ => sure_lift_bind (a := .text text) rfl ?_
    split
    · exact safe_updateScope top (fun _ => rfl) fun _ h => h
    · split
      · refine (safe_updateScope top ?_ ?_).bind fun _ _ => safe_record _
        · exact fun _ => rfl
        · exact fun _ h e he => h e (mem_filter.mp he).1
      · exact safe_report hcfg ⟨n, rfl, hn⟩ (.one _ (by simp))

omit hcfg in
theorem safe_noteLocals {v : Value} (hget : n.get "id" = .ok v) :
    Safe cfg (noteLocals n) := by
  refine sure_lift_bind hget ?_
  split
  · refine sure_current.bind fun ⟨top, scope⟩ _ => ?_
    dsimp only
    split
    · refine sure_get.bind fun s _ => ?_
      split
      · exact safe_updateScope top (fun _ => rfl) fun _ h => h
      · exact safe_pure _
    · exact safe_pure _
  · exact safe_pure _

omit hcfg in
theorem safe_declareGlobal {name : Datum} {key : Datum.Key} (hkey : name.key = .ok key) :
    Safe cfg (declareGlobal name) := by
  refine safe_of_quiet (quiet_declareGlobal name) fun s hs => ?_
  obtain ⟨found, hcurrent⟩ := current_ok_of_orderly hs.orderly
  have hdeclared : ∃ declared, found.2.declareGlobal name = .ok declared := by
    rw [Scope.declareGlobal, hkey]
    exact ⟨_, rfl⟩
  obtain ⟨declared, hdeclared⟩ := hdeclared
  exact ⟨(), _, by simp [declareGlobal, hcurrent, hdeclared, lift, updateScope]; rfl⟩

omit hcfg in
theorem safe_ruleGlobal {names : List Value} (hnames : n.get "names" = .ok (.list names))
    (hkeys : ∀ v ∈ names, ∃ key, v.datum.key = .ok key) : Safe cfg (ruleGlobal n) := by
  refine sure_current.bind fun ⟨top, scope⟩ _ => ?_
  dsimp only
  split
  · refine sure_lift_bind (a := names) (by rw [NodeOf.itemsOf, hnames]; rfl) ?_
    refine safe_forM fun v hv => ?_
    obtain ⟨key, hkey⟩ := hkeys v hv
    exact safe_declareGlobal hkey
  · exact safe_pure _

omit hcfg in
theorem safe_datum (v : Value) : Safe cfg (datum v) := by
  intro s hs
  unfold datum
  cases v with
  | node n =>
    cases h : s.position? n <;> exact ⟨_, s, by simp [h]; rfl, trivial, hs⟩
  | _ => exact ⟨_, s, rfl, trivial, hs⟩

theorem safe_importStar (hn : n.IsPlaced cfg.dialect) (module : Value) :
    Safe cfg (importStar cfg n module) := by
  refine sure_current.bind fun ⟨top, scope⟩ _ => ?_
  refine (safe_updateScope top ?_ ?_).bind fun _ _ => ?_
  · exact fun _ => rfl
  · exact fun _ h => h
  · exact (safe_datum module).bind fun d _ => safe_report hcfg ⟨n, rfl, hn⟩ (.one _ (by simp))

theorem safe_reportShadowing (hn : n.IsPlaced cfg.dialect) {name : Datum} {key : Datum.Key}
    (hkey : name.key = .ok key) : Safe cfg (reportShadowing cfg n name) := by
  refine sure_current.bind fun ⟨top, scope⟩ hscope => sure_lift_bind hkey ?_
  split
  · rename_i b hb
    split
    · refine (sure_datum (sound_find? hscope hb).source).bind fun d hd => ?_
      exact safe_report hcfg ⟨n, rfl, hn⟩ (.hidden _ (by simp) hd)
    · exact safe_pure _
  · exact safe_pure _

omit hcfg in
theorem suits_problemReport (name : Datum) (problem : CallProblem) :
    (problemReport name problem).1.Suits (problemReport name problem).2 := by
  cases problem with
  | tooMany | tooFew => exact .counted _ _ (by simp [problemReport])
  | unexpected | repeated | missingKeywordOnly => exact .pair _ _ (by simp [problemReport])

end Check

end ScopeLint
