import ScopeLint.Proofs.Checker.Drains
import ScopeLint.Proofs.Checker.Ignoring
import ScopeLint.Proofs.Checker.Passage

/-! # Checks that get through

A check of a tree of the grammar goes through its bodies, its verdicts and its closed scopes as soon
as its visits get through, and they do unless a site is stuck. Where a check comes to a site that is
stuck, it fails. -/
namespace ScopeLint

open List

variable {cfg : Setup} {s t : State} {i : Nat} {entries : Array Deferred} {x : Site}

namespace State

theorem Sound.resumed (h : s.Sound cfg) {q : Queue} {d : Deferred} (he : s.Entry q i d)
    (hshift : d.shift = none) : (s.resumed q i d).Sound cfg where
  orderly := h.orderly.resumed he
  moved_eq := h.moved_eq
  shift_eq := hshift
  ancestors := h.ancestors
  entries := h.entries
  bodies := h.bodies
  verdicts := h.verdicts

theorem Sound.finished (h : s.Sound cfg) (hentries : s.assignments = some entries)
    (htop : s.topKind = some .function) (n : Node) (top : ScopeId) :
    (s.finished n top entries [.assignments]).Sound cfg where
  orderly := h.orderly.finished hentries n top _
  moved_eq := h.moved_eq
  shift_eq := h.shift_eq
  ancestors := h.ancestors
  entries := h.entries
  bodies := h.bodies
  verdicts := fun i d hd => by
    rcases (entry_finished hentries).mp hd with hd | ⟨-, -, task, htask, rfl⟩
    · exact h.verdicts i d hd
    · obtain rfl : task = .assignments := mem_singleton.mp (mem_of_getElem? htask)
      exact ⟨h.shift_eq, rfl, htop⟩

theorem Sound.withoutFunctions (h : s.Sound cfg) :
    State.Sound cfg { s with functions := none } := by
  have hgone {i : Nat} {d : Deferred} (hd : { s with functions := none }.Entry .functions i d) :
      False := by
    obtain ⟨entries, hnone, -⟩ := hd
    cases hnone
  refine ⟨⟨h.orderly.kindOf_zero, h.orderly.stack_based, fun q i d hd => ?_,
    h.orderly.guards_listed⟩, h.moved_eq, h.shift_eq, h.ancestors, h.entries,
    fun i d hd => (hgone hd).elim, h.verdicts⟩
  cases q with
  | functions => exact (hgone hd).elim
  | assignments => exact h.orderly.saved_based .assignments i d hd

theorem fit_initial (cfg : Setup) (next : Nat) : (State.initial next).Fit cfg where
  orderly := orderly_initial next
  moved_eq := rfl
  shift_eq := rfl
  ancestors := by simp [State.initial]
  entries := by
    intro id e he
    cases id with
    | zero => cases he
    | succ id => cases he
  bodies := by
    rintro i d ⟨entries, hq, hd⟩
    cases hq
    simp at hd
  verdicts := by
    rintro i d ⟨entries, hq, hd⟩
    cases hq
    simp at hd
  functions := rfl
  assignments := rfl

end State

namespace Check

variable (hcfg : cfg.Plain)

include hcfg

theorem exists_reportUnusedAssignments (hs : s.Sound cfg) (htop : s.topKind = some .function) :
    ∃ t, reportUnusedAssignments cfg s = .ok () t ∧ t.Sound cfg := by
  obtain ⟨⟨top, scope⟩, hcurrent⟩ := current_ok_of_orderly hs.orderly
  obtain ⟨-, ⟨rest, hstack⟩, hscope⟩ := current_eq_ok hcurrent
  have hkind : scope.kind = .function := by
    rw [State.topKind, hstack, head?_cons, Option.bind_some, State.kindOf, hscope] at htop
    exact Option.some.inj htop
  have hsafe : Safe cfg (scope.unusedAssignments.forM fun e =>
      report cfg .unusedVariable e.binding.source [e.name]) := by
    refine safe_forM fun e he => safe_report hcfg ?_ (.one _ (by simp))
    exact (hs.scope hscope e (mem_filter.mp he).1).source
  obtain ⟨_, t, ht, -, hsound⟩ := hsafe s hs
  refine ⟨t, bind_apply_eq_ok.mpr ⟨_, s, hcurrent, ?_⟩, hsound⟩
  dsimp only
  rw [if_pos hkind]
  exact ht

theorem exists_runVerdicts {ds : List Deferred} (hs : s.Sound cfg)
    (hq : s.assignments = some entries) (hds : ds <+: entries.toList.drop i) :
    ∃ t, runEntries cfg (visit cfg) .assignments i ds s = .ok () t ∧ t.Sound cfg ∧
      t.assignments = s.assignments := by
  induction ds generalizing i s with
  | nil => exact ⟨s, rfl, hs, rfl⟩
  | cons d rest ih =>
    have he : s.Entry .assignments i d := entry_of_next hq hds
    obtain ⟨hshift, htask, htop⟩ := hs.verdicts i d he
    obtain ⟨r, hr, hsound⟩ := exists_reportUnusedAssignments hcfg (hs.resumed he hshift) htop
    have hspeaks : Speaks [.unusedVariable] (reportUnusedAssignments cfg) :=
      (told_reportUnusedAssignments mem_cons_self).ends cfg
    have hassignments : r.assignments = s.assignments := (hspeaks.ok hr).alike.assignments_eq
    have hrest : rest <+: entries.toList.drop (i + 1) := by
      obtain ⟨later, hlater⟩ := hds
      rw [← tail_drop, ← hlater]
      exact prefix_append _ _
    obtain ⟨t, ht, hsound', hassignments'⟩ := ih hsound (hassignments.trans hq) hrest
    refine ⟨t, ?_, hsound', hassignments'.trans hassignments⟩
    refine bind_apply_eq_ok.mpr ⟨(), s.resumed .assignments i d, rfl, ?_⟩
    refine bind_apply_eq_ok.mpr ⟨(), r, ?_, ht⟩
    rw [htask]
    exact hr

theorem exists_drainVerdicts (hs : s.Sound cfg) (hq : s.assignments = some entries) :
    ∃ t, drain cfg .assignments s = .ok () t ∧ t.Sound cfg := by
  have hqueue : s.queue .assignments = some entries := hq
  obtain ⟨t, ht, hsound, hassignments⟩ :=
    exists_runVerdicts hcfg hs hq (prefix_refl (entries.toList.drop 0))
  have hqueue' : t.queue .assignments = some entries := hassignments.trans hq
  obtain ⟨fuel, hfuel⟩ : ∃ fuel, rounds cfg entries.toList = fuel + 1 := ⟨_, rfl⟩
  have hdrain : drain cfg .assignments s =
      drainWithin cfg (visit cfg) .assignments (fuel + 1) 0 s := by
    rw [← hfuel]
    simp [drain, drainWith, hqueue]
  -- after the first round nothing has been put off
  have hend : drainWithin cfg (visit cfg) .assignments fuel entries.toList.length t = .ok () t := by
    rw [drainWithin.eq_def]
    simp [hqueue']
  rw [hdrain, drainWithin.eq_def]
  by_cases hempty : entries.toList.isEmpty = true
  · exact ⟨s, by simp_all, hs⟩
  · refine ⟨t, ?_, hsound⟩
    simp only [bind_apply, get_apply, hqueue, drop_zero, hempty, Nat.zero_add]
    exact bind_apply_eq_ok.mpr ⟨(), t, ht, hend⟩

variable (hfree : ∀ x, cfg.Visits x → ¬ x.Stuck)

include hfree

theorem completes_visitBody (hx : cfg.Visits x) (hfunction : x.node.isFunction = true) (hs : s.Fit cfg)
    (htop : s.topKind = some .function) : Completes cfg (visitBody (visit cfg) x.node) s := by
  have hwhole := hx.isWhole hcfg.root
  have hlater (m : Node) (hm : .node m ∈ x.node.deferred) (s : State) (hs : s.Fit cfg)
      (htop : s.topKind = some .function) : Completes cfg (visit cfg (.node m) x.node) s := by
    have hsite : cfg.Visits ⟨.function, x.node, m⟩ := by
      refine hx.later ?_
      rw [Site.laters, if_pos hfunction]
      refine mem_filterMap.mpr ⟨(none, .node m), ?_, rfl⟩
      exact mem_map.mpr ⟨.node m, hm, rfl⟩
    exact completes_visit hcfg hfree hsite hs htop
  rcases Bool.or_eq_true_iff.mp hfunction with hrule | hrule
  · obtain ⟨ms, hms, -⟩ := NodeOf.exists_nodes hwhole "body" .statement
      (NodeOf.hasField_of_rule (eq_of_beq hrule) (by decide))
    have hbody : visitBody (visit cfg) x.node = visitAll (visit cfg) x.node (ms.map .node) := by
      rw [visitBody, hms]
      rfl
    have hdeferred : x.node.deferred = ms.map .node := by rw [NodeOf.deferred, hms]
    rw [hbody]
    refine completes_visitAll (fun v hv => ?_) hs htop
    obtain ⟨m, hm, rfl⟩ := mem_map.mp hv
    exact hlater m (hdeferred ▸ hv)
  · obtain ⟨m, hm, -⟩ := NodeOf.exists_node hwhole "body" .expression
      (NodeOf.hasField_of_rule (eq_of_beq hrule) (by decide))
    have hbody : visitBody (visit cfg) x.node = visit cfg (.node m) x.node := by
      rw [visitBody, hm]
      rfl
    have hdeferred : x.node.deferred = [.node m] := by rw [NodeOf.deferred, hm]
    rw [hbody]
    exact hlater m (by simp [hdeferred]) s hs htop

theorem completes_runBody (hx : cfg.Visits x) (hfunction : x.node.isFunction = true)
    {names : List Datum}
    (hnames : ∀ name ∈ names, ∃ text, name = Datum.text text) (hs : s.Fit cfg) :
    Completes cfg (runBody cfg (visit cfg) x.node names) s := by
  have hwhole := hx.isWhole hcfg.root
  have hplaced : x.node.IsPlaced cfg.dialect := by
    rcases Bool.or_eq_true_iff.mp hfunction with hrule | hrule <;>
      exact Script.isPlaced_of_rule hwhole (eq_of_beq hrule) (by decide)
  have hopened : (s.opened .function).Fit cfg :=
    ⟨hs.opened (by decide), hs.functions, hs.assignments⟩
  have hsafe : Safe cfg (bindParameters cfg x.node names) := by
    refine safe_forM fun name hname => ?_
    obtain ⟨text, rfl⟩ := hnames name hname
    exact safe_bind hcfg hplaced (Script.sound_fresh hplaced text .argument) false
  obtain ⟨_, r, hbind, -, hr⟩ := hsafe _ hopened.toSound
  have halike := (mild_bindParameters _ _ _).ok hbind
  have htop : r.topKind = some .function := halike.topKind_eq.trans (State.topKind_opened s .function)
  obtain ⟨u, hbody, hu, hstack, hgrows⟩ :=
    completes_visitBody hcfg hfree hx hfunction (hopened.alike halike hr) htop
  have htop' : u.topKind = some .function := State.topKind_of_grows hgrows hstack htop
  have hstack' : u.stack = s.scopes.size :: s.stack := hstack.trans halike.stack_eq
  obtain ⟨entries, hentries⟩ := Option.isSome_iff_exists.mp hu.assignments
  have hfinish : finishBody cfg x.node u =
      .ok () (u.finished x.node s.scopes.size entries [.assignments]) := by
    obtain ⟨⟨top, scope⟩, hcurrent⟩ := current_ok_of_orderly hu.orderly
    obtain ⟨-, ⟨rest, htopstack⟩, -⟩ := current_eq_ok hcurrent
    cases hstack'.symm.trans htopstack
    obtain ⟨p, hp⟩ := NodeOf.exists_madeBy hwhole.formed
    simp [finishBody, hcurrent, defer, State.queue, hentries, record, hp.isTwo_eq, State.finished,
      State.setQueue]
  have hlast := hu.finished hentries htop' x.node s.scopes.size
  have hsound := hlast.closed hstack' (by
    obtain ⟨top, outer, hs⟩ := hs.orderly.exists_stack
    simp [hs])
  refine ⟨_, ?_, ⟨hsound, hu.functions, rfl⟩, rfl, ?_⟩
  · refine bind_apply_eq_ok.mpr ⟨(), s.opened .function, rfl, ?_⟩
    refine bind_apply_eq_ok.mpr ⟨(), u.finished x.node s.scopes.size entries [.assignments], ?_, ?_⟩
    · exact bind_apply_eq_ok.mpr ⟨(), r, hbind, bind_apply_eq_ok.mpr ⟨(), u, hbody, hfinish⟩⟩
    · simp [popScope, State.finished, hstack', State.closed]
  · have hfinished := State.grows_finished x.node s.scopes.size hentries [.assignments]
    exact (s.grows_opened .function).trans (halike.grows.trans (hgrows.trans
      (hfinished.trans (State.grows_closed _ _ _))))

theorem exists_runTask {d : Deferred} (hs : s.Fit cfg) (he : s.Entry .functions i d) :
    ∃ t, runTask cfg (visit cfg) d.task (s.resumed .functions i d) = .ok () t ∧ t.Fit cfg := by
  obtain ⟨hshift, x, names, hx, hfunction, htask, hnames⟩ := hs.bodies i d he
  have hresumed : (s.resumed .functions i d).Fit cfg :=
    ⟨hs.resumed he hshift, hs.functions, hs.assignments⟩
  obtain ⟨t, ht, hfit, -⟩ := completes_runBody hcfg hfree hx hfunction hnames hresumed
  rw [htask]
  exact ⟨t, ht, hfit⟩

theorem exists_drain {ran : List Deferred} {r : EStateM.Result Fault State Unit}
    (h : Drains cfg (visit cfg) i s ran r) (hs : s.Fit cfg) : ∃ t, r = .ok () t ∧ t.Fit cfg := by
  induction h with
  | stop hq hsize => exact ⟨_, rfl, hs⟩
  | fail he herror =>
    obtain ⟨u, hu, -⟩ := exists_runTask hcfg hfree hs he
    exact absurd (hu.symm.trans herror) (by simp)
  | step he hok _ ih =>
    obtain ⟨u, hu, hfit⟩ := exists_runTask hcfg hfree hs he
    cases hu.symm.trans hok
    exact ih hfit

end Check

namespace Binding.Sound

variable {d : Dialect} {b : Binding}

theorem exists_exports (h : b.Sound d) :
    ∃ names : List String, b.exports = .ok (names.map .text) := by
  have hread (m : Node) (hm : m.isFormed d = true) (hliteral : (Value.node m).isLiteral = true) :
      ∃ s, (do return (← (Value.node m).literal).datum : Except Fault Datum) = .ok (.text s) := by
    have htable : ∀ d : Dialect, ∀ p ∈ d.grammar, p.kind ≠ "Constant" := by decide
    obtain ⟨p, hp⟩ := NodeOf.exists_madeBy hm
    have hconstant : m.kind ≠ "Constant" := hp.kind_eq ▸ htable d p hp.mem
    have hstr : m.kind = "Str" := by simpa [Value.isLiteral, hconstant] using hliteral
    obtain ⟨v, hv, hfits⟩ := NodeOf.exists_get (f := .one "s" .text) hm
      (NodeOf.hasField_of_kind hstr (by decide))
    have hv : m.get "s" = .ok v := hv
    cases v with
    | text s =>
      have hread : (Value.node m).literal = .ok (.text s) := by
        simp [Value.literal, Value.isKind, hconstant, Value.get, hv]
      exact ⟨s, by rw [hread]; rfl⟩
    | _ => cases hfits
  obtain ⟨n, hn, hplaced⟩ := h.source
  unfold exports
  rw [hn]
  split
  · rename_i hlist
    have hkind : n.kind = "List" := by simpa [Value.isKind] using hlist
    obtain ⟨ms, hms, hwhole⟩ := NodeOf.exists_nodes hplaced.whole "elts" .expression
      (NodeOf.hasField_of_kind hkind (by decide))
    have hall (v : Value) (hv : v ∈ (ms.map Value.node).filter Value.isLiteral) :
        ∃ s, (do return (← v.literal).datum : Except Fault Datum) = .ok (.text s) := by
      obtain ⟨hv, hliteral⟩ := mem_filter.mp hv
      obtain ⟨m, hm, rfl⟩ := mem_map.mp hv
      exact hread m (hwhole m hm).2.formed hliteral
    obtain ⟨names, hnames⟩ := exists_mapM_eq_map hall
    exact ⟨names, by rw [Value.get, hms]; exact hnames⟩
  · exact ⟨[], rfl⟩

end Binding.Sound

namespace Check

section Judgements

variable (hcfg : cfg.Plain)
include hcfg

theorem sure_report {k : Kind} {subject : Value} {args : List Datum}
    (hsubject : subject.IsPlaced cfg.dialect) (hargs : k.Suits args) :
    Sure (·.moved = []) (report cfg k subject args) fun _ => True := by
  intro s hs
  obtain ⟨t, ht⟩ := exists_report hcfg hsubject hargs hs
  have hspeaks : Speaks [k] (report cfg k subject args) :=
    (told_report mem_cons_self _ _).ends cfg
  exact ⟨(), t, ht, trivial, (hspeaks.ok ht).moved_eq.trans hs⟩

theorem sure_judgeScope {scope : Scope} (hscope : scope.Sound cfg.dialect) :
    Sure (·.moved = []) (judgeScope cfg scope) fun _ => True := by
  have hunused (exported : List Datum) : Sure (·.moved = []) ((scope.bindings.filter fun b =>
      b.isUnusedImport && !Datum.among exported b.name).forM fun b =>
        report cfg .unusedImport b.source [b.name]) fun _ => True := by
    refine safe_forM fun b hb => ?_
    obtain ⟨e, he, rfl⟩ := mem_map.mp (mem_filter.mp hb).1
    obtain ⟨name, hname⟩ := (hscope e he).name
    exact sure_report hcfg (hscope e he).source (hname ▸ .imported name)
  have hexports (b : Binding) (hb : b.Sound cfg.dialect) (names : List String) :
      Sure (·.moved = []) (reportExports cfg scope b (names.map .text)) fun _ => True := by
    have hkeys : (names.map Datum.text).mapM Datum.key = .ok (names.map .text) :=
      mapM_eq_ok.mpr (by simp [Datum.key])
    have hset : Datum.setOf (names.map .text) = .ok (Datum.distinct (names.map .text)) := by
      rw [Datum.setOf, hkeys]
      rfl
    unfold reportExports
    split
    · refine sure_lift_bind hset (safe_forM fun name _ => ?_)
      exact sure_report hcfg hb.source (.one _ (by simp))
    · exact safe_pure ()
  unfold judgeScope
  split
  · rename_i b hfind
    have hb : b.Sound cfg.dialect := sound_find? hscope hfind
    split
    · obtain ⟨names, hnames⟩ := hb.exists_exports
      exact sure_lift_bind hnames ((hexports b hb names).bind fun _ _ => hunused _)
    · exact hunused _
  · exact hunused _

theorem exists_judgeDead (hs : s.Sound cfg) {r : State} (hscopes : r.scopes = s.scopes)
    (hmoved : r.moved = s.moved) : ∃ t, judgeDead cfg r = .ok () t := by
  have hall (f : ScopeId → Check Unit) (hf : ∀ id, Sure (·.moved = []) (f id) fun _ => True) :
      ∃ t, r.dead.toList.forM f r = .ok () t := by
    obtain ⟨_, t, ht, -⟩ := safe_forM (fun id _ => hf id) r (hmoved.trans hs.moved_eq)
    exact ⟨t, ht⟩
  refine (hall _ fun id => ?_).imp fun t ht => bind_apply_eq_ok.mpr ⟨r, r, rfl, ht⟩
  split
  · rename_i scope hscope
    have hsame : s.scope? id = some scope := by rwa [State.scope?, ← hscopes]
    exact sure_judgeScope hcfg (hs.scope hsame)
  · exact safe_pure ()

end Judgements

/-- A check in which no site is stuck gets through. -/
theorem exists_run (hcfg : cfg.Plain) (hfree : ∀ x, cfg.Visits x → ¬ x.Stuck) (next : Nat) :
    ∃ t, run cfg (State.initial next) = .ok () t := by
  have hstart (m : Node) (hm : m ∈ cfg.root.children) (s : State) (hs : s.Fit cfg)
      (htop : s.topKind = some .module) : Completes cfg (visit cfg (.node m) cfg.root) s := by
    have hsite : cfg.Visits ⟨.module, cfg.root, m⟩ := by
      refine .start (mem_filterMap.mpr ⟨(none, .node m), ?_, rfl⟩)
      exact mem_map.mpr ⟨.node m, mem_map_of_mem hm, rfl⟩
    exact completes_visit hcfg hfree hsite hs htop
  obtain ⟨s, hwalk, hs, -⟩ := completes_visitChildren hstart (State.fit_initial cfg next) rfl
  obtain ⟨entries, hentries, hduties⟩ := queue_of_walk hwalk
  obtain ⟨ran, hdrains⟩ := exists_drains_drain (w := .length)
    (fun hdoctests => absurd hdoctests (by simp [hcfg.doctests])) hentries hduties
  obtain ⟨u, hu, hfit⟩ := exists_drain hcfg hfree hdrains hs
  have hclosed := hfit.withoutFunctions
  obtain ⟨verdicts, hverdicts⟩ := Option.isSome_iff_exists.mp hfit.assignments
  obtain ⟨v, hv, hsound⟩ := exists_drainVerdicts hcfg hclosed hverdicts
  obtain ⟨-, inner, hstack, -⟩ := hsound.orderly.stack_based
  have hlast : v.stack.getLast?.toList = [0] := by simp [hstack]
  obtain ⟨t, ht⟩ := exists_judgeDead hcfg hsound (r := v.atEnd) rfl rfl
  have hpasses : passes cfg (visit cfg) (State.initial next) = .ok () v :=
    bind_apply_eq_ok.mpr ⟨(), s, hwalk, bind_apply_eq_ok.mpr ⟨(), u, hu,
      bind_apply_eq_ok.mpr ⟨(), _, rfl, hv⟩⟩⟩
  have hpop : popScope { v with assignments := none, stack := v.stack.getLast?.toList } =
      .ok () v.atEnd := by
    simp [popScope, hlast, State.atEnd]
  have hremarks : reportRemarks cfg t = .ok () t := by
    simp [reportRemarks, hcfg.remarks]
  exact ⟨t, bind_apply_eq_ok.mpr ⟨(), v, hpasses, bind_apply_eq_ok.mpr ⟨(), _, rfl,
    bind_apply_eq_ok.mpr ⟨(), _, hpop, bind_apply_eq_ok.mpr ⟨(), t, ht, hremarks⟩⟩⟩⟩⟩

end Check

section Stuck

namespace Check

variable {n p : Node}

/-- The list of exported names cannot be stored in a module next to no value. -/
theorem store_exports_ne_ok (hname : (Value.node n).nameOf? = some (.text "__all__"))
    (htop : s.topKind = some .module) (hparent : s.parent? n = some p)
    (hloop : p.kind ∉ ["For", "comprehension", "Tuple", "List"]) (hvalue : p.field? "value" = none) :
    store cfg n s ≠ .ok () t := by
  intro h
  rw [store, hname] at h
  obtain ⟨⟨top, scope⟩, s₁, hcurrent, hafter⟩ := bind_apply_eq_ok.mp h
  obtain ⟨key, hkey, hreports⟩ := lift_bind_eq_ok.mp hafter
  obtain ⟨_, s₂, hreport, hbinds⟩ := bind_apply_eq_ok.mp hreports
  obtain ⟨found, hfound, -⟩ := lift_bind_eq_ok.mp (get_bind_eq_ok.mp hbinds)
  obtain ⟨rfl, ⟨rest, hstack⟩, hscope⟩ := current_eq_ok hcurrent
  cases hkey
  have hparent' : s₂.parent? n = some p := by
    rw [State.parent?, State.mark?, ((told_reportUsedBefore _ _ _ _).ok hreport).alike.marks_eq]
    exact hparent
  have hmodule : scope.kind = .module := by
    rw [State.topKind, hstack, head?_cons, Option.bind_some, State.kindOf, hscope] at htop
    exact Option.some.inj htop
  rw [hparent', storeKind, if_neg (by simpa using hloop), if_pos ⟨rfl, hmodule⟩, NodeOf.get,
    hvalue] at hfound
  cases hfound

theorem handleNode_ne_ok {below : Visit} (hx : cfg.Visits x) (hroot : cfg.root.Conforms cfg.dialect)
    (hstuck : x.Stuck) (htop : s.topKind = some x.scope)
    (hparent : s.parent? x.node = some x.parent) : handleNode cfg below x.node s ≠ .ok () t := by
  have hwhole := hx.isWhole hroot
  intro h
  obtain ⟨rule, hrule, h⟩ := lift_bind_eq_ok.mp h
  rw [ruleFor?] at hrule
  cases hstuck with
  | parameter hkind hcontext hparam =>
    rw [hkind, NodeOf.of?_name] at hrule
    cases hrule
    have h : ruleName cfg x.node s = .ok () t := h
    rw [ruleName_of_param hcontext hparam] at h
    cases h
  | exports hscope hstores hloop hvalue =>
    have hname := hstores.nameOf? hwhole.formed
    rw [hscope] at htop
    cases hstores with
    | target hkind hid hcontext hstore =>
      rw [hkind, NodeOf.of?_name] at hrule
      cases hrule
      have h : ruleName cfg x.node s = .ok () t := h
      rw [ruleName_of_store hcontext hstore] at h
      exact store_exports_ne_ok hname htop hparent hloop hvalue h
    | handler hkind hid =>
      have hhandler : Rule.of? "ExceptHandler" = some .exceptHandler := by decide
      rw [hkind, hhandler] at hrule
      cases hrule
      obtain ⟨type, htype, -⟩ := NodeOf.exists_nodal hwhole.formed "type" .expression
        (NodeOf.hasField_of_kind hkind (by decide))
      have h : ruleExceptHandler cfg below x.node s = .ok () t := h
      rw [ruleExceptHandler_eq htype hid] at h
      obtain ⟨_, r, hreport, hrest⟩ := bind_apply_eq_ok.mp h
      obtain ⟨_, u, hstore, -⟩ := bind_apply_eq_ok.mp hrest
      have halike : s.Alike r := by
        cases hnull : type.isNull <;> rw [hnull] at hreport
        · cases hreport
          exact .refl s
        · exact ((told_anyReport _ _ _).ok hreport).toAlike
      refine store_exports_ne_ok hname (halike.topKind_eq.trans htop) ?_ hloop hvalue hstore
      rw [State.parent?, State.mark?, halike.marks_eq]
      exact hparent

/-- A check that gets through has come to no site that is stuck. -/
theorem not_stuck_of_run {next : Nat} (h : run cfg (State.initial next) = .ok () t)
    (hroot : cfg.root.Conforms cfg.dialect) (hx : cfg.Visits x) : ¬ x.Stuck := by
  intro hstuck
  obtain ⟨s, hexplore, -⟩ := hears_of_run h
  obtain ⟨fuel, r, u, hhandles⟩ := exists_handles hexplore hx
  exact handleNode_ne_ok hx hroot hstuck hhandles.topKind hhandles.parent hhandles.handled

end Check

end Stuck

/-- A check of a tree of the grammar, without doctests and remarks, gets through exactly if it comes
neither to a name that is there as a parameter nor, in the module, to a store of the list of exported
names by a node that has no value next to it. -/
theorem Request.finishes_iff_nothing_stuck (r : Request) {cfg : Setup} (hsetup : r.setup = .ok cfg)
    (hcfg : cfg.Plain) : r.run.2 = none ↔ ∀ x, cfg.Visits x → ¬ x.Stuck := by
  constructor
  · intro hnone x hx
    obtain ⟨cfg', hsetup', hrun⟩ := run_eq_iff.mp (show r.run = (r.run.1, none) by rw [← hnone])
    cases hsetup.symm.trans hsetup'
    exact Check.not_stuck_of_run hrun hcfg.root hx
  · intro hfree
    obtain ⟨t, ht⟩ := Check.exists_run hcfg hfree r.tree.size
    rw [run_eq_iff.mpr ⟨cfg, hsetup, ht⟩]

namespace Sample

/-- A check of which nothing but the statements of a module is given. -/
def bare (body : List Value) : Request where
  tree := (setup body).root
  filename := .text Check.noFile
  dialect := .threeFour
  builtins := .null
  ignoredLines := .list []
  settings := []
  traced := false
  compile := .ofTable []
  remarks := []

theorem setup_bare (body : List Value) : (bare body).setup = .ok (setup body) := rfl

/-- The function `f`, and the list of exported names with `f` in it. -/
def exporting : List Value :=
  [function 1 "f" [.node ⟨0, "Expr", some (.of 2 4), [("value", name 2 "f" "Load")]⟩],
   .node ⟨0, "Assign", some (.of 3 0), [("targets", .list [name 3 "__all__" "Store"]),
    ("value", .node ⟨0, "List", some (.of 3 10), [
      ("elts", .list [.node ⟨0, "Str", some (.of 3 11), [("s", .text "f")]⟩]),
      ("ctx", .node ⟨0, "Load", none, []⟩)]⟩)]⟩]

/-- The statement `with 0 as __all__: pass`. -/
def exportingContext : List Value :=
  [.node ⟨0, "With", some (.of 1 0), [
    ("items", .list [.node ⟨0, "withitem", none, [
      ("context_expr", .node ⟨0, "Num", some (.of 1 5), [("n", .int 0)]⟩),
      ("optional_vars", name 1 "__all__" "Store")]⟩]),
    ("body", .list [.node ⟨0, "Pass", some (.of 2 4), []⟩])]⟩]

theorem plain_setup {body : List Value} (h : (setup body).root.Conforms .threeFour) :
    (setup body).Plain :=
  ⟨h, ⟨[], rfl⟩, ⟨[], rfl⟩, rfl, rfl⟩

end Sample

/-- The list of exported names is assigned, and the check gets through. -/
theorem Request.finishes_iff_nothing_stuck_exporting :
    (Sample.bare Sample.exporting).setup = .ok (Sample.setup Sample.exporting) ∧
    (Sample.setup Sample.exporting).Plain ∧ (Sample.bare Sample.exporting).run.2 = none ∧
    ∀ x, (Sample.setup Sample.exporting).Visits x → ¬ x.Stuck := by
  have hroot : (Sample.setup Sample.exporting).root.Conforms .threeFour :=
    ⟨by decide +kernel, by decide +kernel⟩
  have hcompletes : Sample.completes (Sample.bare Sample.exporting) (fun _ => true) = true := by
    decide +kernel
  obtain ⟨t, ht, -⟩ := Sample.completes_eq_true hcompletes
  have hrun : (Sample.bare Sample.exporting).run.2 = none := by rw [ht]
  have hcfg := Sample.plain_setup hroot
  have hiff := Request.finishes_iff_nothing_stuck _ (Sample.setup_bare Sample.exporting) hcfg
  exact ⟨rfl, hcfg, hrun, hiff.mp hrun⟩

/-- The list of exported names is what a context is called, and the check fails. -/
theorem Request.exports_as_context_fails :
    (Sample.bare Sample.exportingContext).setup = .ok (Sample.setup Sample.exportingContext) ∧
    (Sample.setup Sample.exportingContext).Plain ∧
    (Sample.bare Sample.exportingContext).run.2 =
      some (.missingAttribute "withitem" "value") := by
  have hroot : (Sample.setup Sample.exportingContext).root.Conforms .threeFour :=
    ⟨by decide +kernel, by decide +kernel⟩
  refine ⟨rfl, Sample.plain_setup hroot, ?_⟩
  decide +kernel

end ScopeLint
