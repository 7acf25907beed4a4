import Mathlib.Data.List.Nodup
import ScopeLint.Proofs.Checker.Closing
import ScopeLint.Proofs.Checker.Pending
import ScopeLint.Proofs.Checker.Resolution

/-! # Unused locals

Locals of functions are judged when all bodies have been gone through. From then on no scope changes,
so the reports are about what the scopes hold at the end, and a load in a body that was put off, at
any depth, comes before the verdict. -/
namespace ScopeLint

open List

variable {cfg : Setup} {e : ScopeLint.Entry} {s t : State} {id : ScopeId}

theorem Event.bodyOf?_of_isNote {e : Event} (h : e.isNote = true) : e.bodyOf? = none := by
  cases e with
  | compared | reported => rfl
  | _ => cases h

def State.unusedIn (s : State) (id : ScopeId) : List ScopeLint.Entry :=
  ((s.scope? id).map (·.unusedAssignments)).getD []

def State.complaint (s : State) (e : ScopeLint.Entry) : List Datum :=
  [s.datumOf e.binding.source, e.name]

namespace State

/-- Two states with the same scopes, marks and places of nodes, where only notes have been put on
record. -/
structure Hears (s t : State) : Prop where
  scopes_eq : t.scopes = s.scopes
  marks_eq : t.marks = s.marks
  moved_eq : t.moved = s.moved
  notes : ∃ es, t.history = es ++ s.history ∧ ∀ e ∈ es, e.isNote = true

variable {kinds : List Kind} {u : State}

theorem Hears.of_eq (hscopes : t.scopes = s.scopes) (hmarks : t.marks = s.marks)
    (hmoved : t.moved = s.moved) (hhistory : t.history = s.history) : s.Hears t :=
  ⟨hscopes, hmarks, hmoved, [], hhistory, by simp⟩

theorem Says.hears (h : s.Says kinds t) : s.Hears t := by
  obtain ⟨es, hes, hnotes⟩ := h.notes
  exact ⟨h.scopes_eq, h.alike.marks_eq, h.moved_eq, es, hes, fun e he => (hnotes e he).isNote⟩

variable (h : s.Hears t)

include h

theorem Hears.trans (k : t.Hears u) : s.Hears u := by
  obtain ⟨es, hes, hnotes⟩ := h.notes
  obtain ⟨more, hmore, hmoreNotes⟩ := k.notes
  refine ⟨k.scopes_eq.trans h.scopes_eq, k.marks_eq.trans h.marks_eq,
    k.moved_eq.trans h.moved_eq, more ++ es, ?_, ?_⟩
  · rw [hmore, hes, append_assoc]
  · intro e he
    exact (mem_append.mp he).elim (hmoreNotes e) (hnotes e)

theorem Hears.datumOf_eq (v : Value) : t.datumOf v = s.datumOf v := by
  unfold datumOf position?
  rw [h.moved_eq]

theorem Hears.complaint_eq : t.complaint = s.complaint := by
  funext e
  simp [complaint, h.datumOf_eq]

theorem Hears.unusedIn_eq (id : ScopeId) : t.unusedIn id = s.unusedIn id := by
  simp [unusedIn, scope?, h.scopes_eq]

theorem Hears.bodies_eq : t.bodies = s.bodies := by
  obtain ⟨es, hes, hnotes⟩ := h.notes
  rw [bodies_of_history hes, filterMap_eq_nil_iff.mpr, append_nil]
  exact fun e he => Event.bodyOf?_of_isNote (hnotes e (mem_reverse.mp he))

theorem Hears.settled (hs : s.Settled) : t.Settled := by
  obtain ⟨es, hes, hnotes⟩ := h.notes
  refine hs.append hes (fun id kind hid => ?_) (fun e he => Event.bodyOf?_of_isNote (hnotes e he)) ?_
  · rwa [kindOf, scope?, h.scopes_eq]
  · exact fun e he _ _ _ => Event.spares_of_isNote (hnotes e he)

end State

namespace Check

variable {visit : Visit} {q : Queue} {entries : Array Deferred}

theorem reportUnusedAssignments_eq_ok (h : reportUnusedAssignments cfg s = .ok () t) :
    ∃ id rest, s.stack = id :: rest ∧ s.Says [.unusedVariable] t ∧
      t.reportsOf "E307" = s.reportsOf "E307" ++ (s.unusedIn id).map s.complaint := by
  obtain ⟨id, rest, scope, hstack, hscope, h⟩ := current_bind_eq_ok h
  refine ⟨id, rest, hstack, ?_⟩
  have hunused : s.unusedIn id = scope.unusedAssignments := by simp [State.unusedIn, hscope]
  dsimp only at h
  split at h
  · rw [hunused]
    obtain ⟨hspeech, hhistory⟩ := forM_report_eq_ok h
    refine ⟨hspeech, ?_⟩
    rw [State.reportsOf_of_history hhistory, reverse_reverse, Event.filterMap_reported]
    rfl
  · cases h

/-- A verdict that was put off is about the scope on top of the stack at that time. -/
theorem runTask_eq_ok {d : Deferred} (hd : d.task.isVerdict = true) (hstack : s.stack = d.stack)
    (h : runTask cfg visit d.task s = .ok () t) : s.Says Kind.ofVerdicts t ∧ t.reportsOf "E307" =
      s.reportsOf "E307" ++ d.judges?.toList.flatMap fun id => (s.unusedIn id).map s.complaint := by
  have hspeech : s.Says Kind.ofVerdicts t := (speaks_verdict hd).ok h
  cases htask : d.task with
  | body | doctests => simp [htask, Task.isVerdict] at hd
  | assignments =>
    rw [htask] at h
    obtain ⟨id, rest, htop, -, hreports⟩ := reportUnusedAssignments_eq_ok h
    have hjudges : d.judges? = some id := by simp [Deferred.judges?, htask, ← hstack, htop]
    exact ⟨hspeech, by simp [hreports, hjudges]⟩
  | returns n =>
    rw [htask] at h
    have hreturns : Speaks [.returnInGenerator] (reportReturns cfg n) :=
      (told_reportReturns (mem_singleton.mpr rfl) n).ends cfg
    have hjudges : d.judges? = none := by simp [Deferred.judges?, htask]
    have hcode : ∀ k ∈ [Kind.returnInGenerator], k.hasCode "E307" = false := by decide
    have hreports := (hreturns.ok h).reportsOf_eq hcode
    exact ⟨hspeech, by simp [hreports, hjudges]⟩

theorem runEntries_eq_ok {i : Nat} {ds : List Deferred} (hds : ∀ d ∈ ds, d.task.isVerdict = true)
    (h : runEntries cfg visit q i ds s = .ok () t) :
    s.Hears t ∧ (t.assignments = s.assignments ∧ t.dead = s.dead) ∧
      t.reportsOf "E307" = s.reportsOf "E307" ++
      (ds.filterMap Deferred.judges?).flatMap fun id => (s.unusedIn id).map s.complaint := by
  induction ds generalizing i s with
  | nil =>
    cases h
    exact ⟨.of_eq rfl rfl rfl rfl, ⟨rfl, rfl⟩, by simp⟩
  | cons d rest ih =>
    obtain ⟨hd, hrest⟩ := forall_mem_cons.mp hds
    obtain ⟨_, r, hresume, h⟩ := bind_apply_eq_ok.mp h
    cases hresume
    obtain ⟨_, u, htask, h⟩ := bind_apply_eq_ok.mp h
    have hresumed : s.Hears (s.resumed q i d) := .of_eq rfl rfl rfl rfl
    obtain ⟨hspeech, hreports⟩ := runTask_eq_ok (s := s.resumed q i d) hd rfl htask
    have hheard := hresumed.trans hspeech.hears
    obtain ⟨hrestHeard, ⟨hqueue, hdead⟩, hrestReports⟩ := ih hrest h
    refine ⟨hheard.trans hrestHeard, ⟨hqueue.trans hspeech.alike.assignments_eq,
      hdead.trans hspeech.alike.dead_eq⟩, ?_⟩
    have hsame : (s.resumed q i d).reportsOf "E307" = s.reportsOf "E307" := rfl
    simp only [hrestReports, hreports, hsame, hheard.unusedIn_eq, hheard.complaint_eq,
      hresumed.unusedIn_eq, hresumed.complaint_eq, append_assoc]
    cases hjudges : d.judges? with
    | none => simp [hjudges]
    | some id => simp [hjudges]

theorem drainWithin_apply (hq : s.queue q = some entries) (fuel done : Nat) :
    drainWithin cfg visit q fuel done s =
      if entries.toList.drop done = [] then .ok () s
      else match fuel with
        | 0 => .error .endless s
        | fuel + 1 => (do
          runEntries cfg visit q done (entries.toList.drop done)
          drainWithin cfg visit q fuel (done + (entries.toList.drop done).length)) s := by
  rw [drainWithin]
  simp only [bind_apply, get_apply, hq, List.isEmpty_iff]
  split
  · rfl
  · cases fuel <;> rfl

/-- All verdicts are given in one round, as they put nothing off. -/
theorem runEntries_of_drain (hq : s.assignments = some entries)
    (hds : ∀ d ∈ entries.toList, d.task.isVerdict = true)
    (h : drainWith cfg visit .assignments s = .ok () t) :
    runEntries cfg visit .assignments 0 entries.toList s = .ok () t := by
  have hrounds := get_bind_eq_ok.mp h
  generalize rounds cfg _ = fuel at hrounds
  have hqueue : s.queue .assignments = some entries := hq
  rw [drainWithin_apply hqueue, drop_zero] at hrounds
  split at hrounds
  · rename_i hempty
    rwa [hempty]
  cases fuel with
  | zero => cases hrounds
  | succ fuel =>
    obtain ⟨_, r, hround, hnext⟩ := bind_apply_eq_ok.mp hrounds
    obtain ⟨-, ⟨hkept, -⟩, -⟩ := runEntries_eq_ok hds hround
    -- the next round finds the queue as it was
    have hqueue' : r.queue .assignments = some entries := hkept.trans hq
    rw [drainWithin_apply hqueue', Nat.zero_add, drop_length, if_pos rfl] at hnext
    cases hnext
    exact hround

end Check

/-- The arguments of the diagnostics with the code that further checkers give. -/
def Setup.remarkedOf (cfg : Setup) (code : String) : List (List Datum) :=
  cfg.remarked.filterMap fun r => r.event.argsOf? code

namespace Check

variable {next : Nat}

/-- The walk over the tree, and all that it puts off but the verdicts. -/
def explore (cfg : Setup) : Check Unit := do
  visitChildren (visit cfg) cfg.root
  drain cfg .functions

theorem exists_explore (h : passes cfg (visit cfg) s = .ok () t) : ∃ r, explore cfg s = .ok () r ∧
    drain cfg .assignments { r with functions := none } = .ok () t := by
  obtain ⟨_, r₁, hwalk, hrest⟩ := bind_apply_eq_ok.mp h
  obtain ⟨_, r, hfunctions, hrest⟩ := bind_apply_eq_ok.mp hrest
  obtain ⟨_, r₂, hclose, hassignments⟩ := bind_apply_eq_ok.mp hrest
  cases hclose
  exact ⟨r, bind_apply_eq_ok.mpr ⟨_, r₁, hwalk, hfunctions⟩, hassignments⟩

theorem follows_visitRoot (cfg : Setup) :
    Follows cfg cfg.root (cfg.root.children.map .node) (visitChildren (visit cfg) cfg.root) :=
  follows_visitChildren (fun _ hv => follows_visit hv) fun _ hv => hv

theorem course_of_walk (h : visitChildren (visit cfg) cfg.root s = .ok () t) :
    Course cfg cfg.root (cfg.root.children.map .node) s t := (follows_visitRoot cfg).ok h

theorem pending_of_explore (h : explore cfg (State.initial next) = .ok () s) : s.Pending := by
  obtain ⟨_, r, hwalk, hfunctions⟩ := bind_apply_eq_ok.mp h
  have hcourse := course_of_walk hwalk
  have hstrokes : Strokes cfg .functions r s :=
    (strokes_drainWith (fun _ _ _ hv => follows_visit hv) .functions r).ok hfunctions
  exact hstrokes.pending hcourse.pending

/-- After the walk and the bodies, a run only gives its verdicts. -/
theorem hears_of_run (h : run cfg (State.initial next) = .ok () t) :
    ∃ s, explore cfg (State.initial next) = .ok () s ∧ s.Pending ∧ s.Hears t ∧
      t.dead = s.dead.push 0 ∧
      t.reportsOf "E307" = (s.bodies.flatMap fun id => (s.unusedIn id).map s.complaint) ++
        cfg.remarkedOf "E307" := by
  obtain ⟨r, u, hpasses, -, hjudge, hremarks⟩ := run_eq_ok h
  obtain ⟨s, hexplore, hdrain⟩ := exists_explore hpasses
  have hpending := pending_of_explore hexplore
  obtain ⟨entries, hentries, hverdicts, hjudged⟩ := hpending.verdicts
  have hclosed : s.Hears { s with functions := none } := .of_eq rfl rfl rfl rfl
  have hqueue : ({ s with functions := none } : State).assignments = some entries := hentries
  obtain ⟨hheard, ⟨-, hdead⟩, hreports⟩ :=
    runEntries_eq_ok hverdicts (runEntries_of_drain hqueue hverdicts hdrain)
  have hend : r.Hears r.atEnd := .of_eq rfl rfl rfl rfl
  have hjudges : r.atEnd.Says judged u := told_judgeDead.ok hjudge
  obtain ⟨hspeech, hhistory⟩ := reportRemarks_eq_ok hremarks
  refine ⟨s, hexplore, hpending, ?_, ?_, ?_⟩
  · exact ((hclosed.trans hheard).trans hend).trans (hjudges.hears.trans hspeech.hears)
  · rw [hspeech.alike.dead_eq, hjudges.alike.dead_eq]
    exact congrArg (·.push 0) hdead
  · have hcode : ∀ k ∈ judged, k.hasCode "E307" = false := by decide
    have hunsaid : ({ s with functions := none } : State).reportsOf "E307" = [] := hpending.unsaid
    have hverdict : r.atEnd.reportsOf "E307" = r.reportsOf "E307" := rfl
    rw [State.reportsOf_of_history hhistory, hjudges.reportsOf_eq hcode, hverdict, hreports, hunsaid,
      hjudged, nil_append, reverse_reverse, filterMap_map]
    rfl

end Check

/-- At the end, the scope of a function whose body has been gone through holds the assignment,
nothing has used it, the name is not declared global, and the locals are not taken all at once. -/
structure State.UnusedLocal (t : State) (id : ScopeId) (e : ScopeLint.Entry) : Prop where
  body : ∃ n, n.isFunction = true ∧ .body n id ∈ t.history
  held : ∃ scope, t.scope? id = some scope ∧ e ∈ scope.entries ∧ scope.isGlobal e.key = false ∧
    scope.usesLocals = false
  assignment : e.binding.kind.isAssignment = true
  unused : e.binding.used = none

namespace State

theorem mem_unusedIn : e ∈ t.unusedIn id ↔ (∃ scope, t.scope? id = some scope ∧ e ∈ scope.entries ∧
    scope.isGlobal e.key = false ∧ scope.usesLocals = false) ∧
      e.binding.kind.isAssignment = true ∧ e.binding.used = none := by
  unfold unusedIn
  cases t.scope? id with
  | none => simp
  | some scope =>
    simp only [Option.map_some, Option.getD_some, Scope.unusedAssignments, Binding.isUsed,
      mem_filter, Option.some.injEq, exists_eq_left', Bool.and_eq_true, Bool.not_eq_true',
      Option.isSome_eq_false_iff, Option.isNone_iff_eq_none]
    constructor
    · rintro ⟨he, ⟨⟨hunused, hglobal⟩, hlocals⟩, hassignment⟩
      exact ⟨⟨he, hglobal, hlocals⟩, hassignment, hunused⟩
    · rintro ⟨⟨he, hglobal, hlocals⟩, hassignment, hunused⟩
      exact ⟨he, ⟨⟨hunused, hglobal⟩, hlocals⟩, hassignment⟩

theorem Settled.unusedLocal_iff (h : t.Settled) :
    t.UnusedLocal id e ↔ id ∈ t.bodies ∧ e ∈ t.unusedIn id := by
  rw [mem_bodies, mem_unusedIn]
  constructor
  · rintro ⟨⟨n, -, hbody⟩, hheld, hassignment, hunused⟩
    exact ⟨⟨n, hbody⟩, hheld, hassignment, hunused⟩
  · rintro ⟨⟨n, hbody⟩, hheld, hassignment, hunused⟩
    exact ⟨⟨n, (h.function_of_body n id hbody).1, hbody⟩, hheld, hassignment, hunused⟩

def unusedLocals (t : State) : List (ScopeId × ScopeLint.Entry) :=
  t.bodies.flatMap fun id => (t.unusedIn id).map (id, ·)

theorem Settled.mem_unusedLocals (h : t.Settled) :
    (id, e) ∈ t.unusedLocals ↔ t.UnusedLocal id e := by
  rw [h.unusedLocal_iff]
  simp [unusedLocals]

theorem map_unusedLocals (t : State) : (t.unusedLocals.map fun j => t.complaint j.2) =
    t.bodies.flatMap fun id => (t.unusedIn id).map t.complaint := by
  simp only [unusedLocals, map_flatMap, map_map]
  rfl

theorem unusedIn_sublist (t : State) (id : ScopeId) : (t.unusedIn id).Sublist (t.entriesOf id) := by
  unfold unusedIn entriesOf
  cases t.scope? id with
  | none => exact List.Sublist.refl _
  | some scope => exact filter_sublist

theorem Settled.nodup_unusedLocals (h : t.Settled) (hkeys : ∀ id, (t.keysOf id).Nodup) :
    (t.unusedLocals.map fun j => (j.1, j.2.key)).Nodup := by
  have hlists : (t.unusedLocals.map fun j => (j.1, j.2.key)) =
      t.bodies.flatMap fun id => ((t.unusedIn id).map (·.key)).map (id, ·) := by
    simp only [unusedLocals, map_flatMap, map_map]
    rfl
  rw [hlists, nodup_flatMap]
  constructor
  · intro id _
    have hnodup : ((t.unusedIn id).map (·.key)).Nodup :=
      (hkeys id).sublist ((t.unusedIn_sublist id).map _)
    exact hnodup.map fun _ _ heq => (Prod.mk.inj heq).2
  · refine h.nodup_bodies.imp fun hne j hj hj' => hne ?_
    obtain ⟨_, -, rfl⟩ := mem_map.mp hj
    obtain ⟨_, -, heq⟩ := mem_map.mp hj'
    exact (Prod.mk.inj heq).1.symm

end State

section Closures

variable {later earlier : List Event} {key : Datum.Key} {use : Use}

/-- A name that has been loaded is used as long as nothing is bound or deleted in its scope. -/
theorem used_of_spares {b : Binding} (hspares : ∀ e ∈ later, e.Spares id)
    (hb : replayed id key (later ++ .loaded id key use :: earlier) = some b) : b.used ≠ none := by
  induction later generalizing b with
  | nil =>
    simp only [nil_append, replayed, Event.after, and_self, if_true] at hb
    obtain ⟨o, -, rfl⟩ := Option.map_eq_some_iff.mp hb
    simp
  | cons e later ih =>
    obtain ⟨he, hspares⟩ := forall_mem_cons.mp hspares
    have hpass (hsame : replayed id key (later ++ .loaded id key use :: earlier) = some b) :
        b.used ≠ none := ih hspares hsame
    simp only [cons_append, replayed] at hb
    cases e with
    | loaded i k use' =>
      simp only [Event.after] at hb
      split at hb
      · obtain ⟨o, -, rfl⟩ := Option.map_eq_some_iff.mp hb
        simp
      · exact hpass hb
    | bound i k | deleted i k =>
      have hother : ¬ (id = i ∧ key = k) := fun heq => he heq.1.symm
      simp only [Event.after, if_neg hother] at hb
      exact hpass hb
    | refused | compared | body | reported => exact hpass hb

theorem Scope.find?_of_mem {scope : Scope} {e : Entry} (hkeys : scope.keys.Nodup)
    (he : e ∈ scope.entries) : scope.find? e.key = some e.binding := by
  have hsome : (scope.entries.find? (·.key == e.key)).isSome = true :=
    find?_isSome.mpr ⟨e, he, by simp⟩
  obtain ⟨e', he'⟩ := Option.isSome_iff_exists.mp hsome
  have hkey : e'.key = e.key := by simpa using find?_some he'
  obtain rfl := inj_on_of_nodup_map hkeys (mem_of_find?_eq_some he') he hkey
  simp [Scope.find?, he']

/-- A local that is loaded when the body has been gone through is not unused. -/
theorem State.UnusedLocal.key_ne {n : Node} (h : t.UnusedLocal id e) (ht : t.Recorded)
    (hsettled : t.Settled) (hsplit : t.history = later ++ .loaded id key use :: earlier)
    (hbody : .body n id ∈ earlier) :
    e.key ≠ key := by
  rintro rfl
  obtain ⟨scope, hscope, he, -⟩ := h.held
  have hkeys : scope.keys.Nodup := State.keys_of_scope? hscope ▸ ht.keys_nodup id
  have hb : t.binding? id e.key = some e.binding := by
    simp [State.binding?, hscope, Scope.find?_of_mem hkeys he]
  have hspared := hsettled.spared
  rw [hsplit, pairwise_append] at hspared
  have hspares : ∀ x ∈ later, x.Spares id := fun x hx =>
    hspared.2.2 x hx (.body n id) (mem_cons_of_mem _ hbody) n id rfl
  rw [ht.binding?_eq, hsplit] at hb
  exact used_of_spares hspares hb h.unused

end Closures

namespace Check

/-- In a run that gets through, the unused locals at the end are reported, each once and at its place,
and of these reports there are no others but those of further checkers. No scope changes once the
bodies have been gone through, and what is loaded after its body, as closures do, is not reported. -/
theorem unused_locals_judged_at_end (cfg : Setup) (next : Nat) (t : State)
    (h : run cfg (State.initial next) = .ok () t) :
    (∃ s, explore cfg (State.initial next) = .ok () s ∧ t.scopes = s.scopes) ∧
    ∃ judged : List (ScopeId × Entry), (judged.map fun j => (j.1, j.2.key)).Nodup ∧
      (∀ id e, (id, e) ∈ judged ↔ t.UnusedLocal id e) ∧
      t.reportsOf "E307" = (judged.map fun j => [t.datumOf j.2.binding.source, j.2.name]) ++
        cfg.remarkedOf "E307" ∧
      ∀ later id key use earlier n, t.history = later ++ .loaded id key use :: earlier →
        .body n id ∈ earlier → ∀ e, (id, e) ∈ judged → e.key ≠ key := by
  have hrecorded : t.Recorded := (recorded_run cfg next).ok h (State.recorded_initial next)
  obtain ⟨s, hexplore, hpending, hheard, -, hreports⟩ := hears_of_run h
  have hsettled := hheard.settled hpending.settled
  refine ⟨⟨s, hexplore, hheard.scopes_eq⟩, t.unusedLocals,
    hsettled.nodup_unusedLocals hrecorded.keys_nodup, fun id e => hsettled.mem_unusedLocals, ?_, ?_⟩
  · have hlist : (t.unusedLocals.map fun j => t.complaint j.2) =
        s.bodies.flatMap fun id => (s.unusedIn id).map s.complaint := by
      rw [t.map_unusedLocals, hheard.bodies_eq, hheard.complaint_eq]
      simp only [hheard.unusedIn_eq]
    rw [hreports, ← hlist]
    rfl
  · intro later id key use earlier n hsplit hbody e he
    exact (hsettled.mem_unusedLocals.mp he).key_ne hrecorded hsettled hsplit hbody

end Check

namespace Sample

/-- A function assigns `x` and `y`, and a function in a function inside it loads `y`. -/
def closures : Setup :=
  setup [function 1 "f" [assign 2 "x", assign 3 "y",
    function 4 "g" [function 5 "h" [name 6 "y" "Load"]]]]

/-- A further checker speaks of an unused local, and there is no function. -/
def foreign : Setup :=
  { setup [] with
    filename := "f.py"
    remarks := [.ok [⟨.unusedVariable, [.object "Loc" none [("lineno", .int 1),
      ("col_offset", .int 0)], .text "x"], []⟩]] }

end Sample

namespace Check

open Sample

/-- Only one of two locals is unused. -/
theorem unused_locals_judged_at_end_closures :
    ∃ (t : State) (judged : List (ScopeId × Entry)),
      run closures (State.initial closures.root.size) = .ok () t ∧
      (∀ id e, (id, e) ∈ judged ↔ t.UnusedLocal id e) ∧ judged.length = 1 ∧
      t.reportsOf "E307" = judged.map fun j => [t.datumOf j.2.binding.source, j.2.name] := by
  have hends : endsWith closures (fun t => (t.reportsOf "E307").length == 1) = true := by
    decide +kernel
  obtain ⟨t, hrun, hone⟩ := endsWith_eq_true hends
  obtain ⟨-, judged, -, hmem, hreports, -⟩ := unused_locals_judged_at_end _ _ t hrun
  have hnone : closures.remarkedOf "E307" = [] := rfl
  rw [hnone, List.append_nil] at hreports
  refine ⟨t, judged, hrun, hmem, ?_, hreports⟩
  simpa [hreports] using hone

/-- What a further checker says of an unused local comes without one. -/
theorem reportsOf_unusedVariable_foreign :
    ∃ t, run foreign (State.initial foreign.root.size) = .ok () t ∧
      (t.reportsOf "E307").length = 1 ∧ ∀ id e, ¬ t.UnusedLocal id e := by
  have hends : endsWith foreign (fun t =>
      (t.reportsOf "E307").length == 1 && t.bodies.isEmpty) = true := by decide +kernel
  obtain ⟨t, hrun, hone⟩ := endsWith_eq_true hends
  obtain ⟨hlength, hbodies⟩ := Bool.and_eq_true_iff.mp hone
  refine ⟨t, hrun, by simpa using hlength, fun id e hlocal => ?_⟩
  obtain ⟨n, -, hbody⟩ := hlocal.body
  have hmem := State.mem_bodies.mpr ⟨n, hbody⟩
  rw [List.isEmpty_iff.mp hbodies] at hmem
  cases hmem

end Check

end ScopeLint
