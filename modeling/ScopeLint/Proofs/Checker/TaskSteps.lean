import ScopeLint.Proofs.Checker.Docstrings
import ScopeLint.Proofs.Checker.Steps

/-! # Tasks as lists of steps

As a visit does, the work that is put off takes steps that are known before: the body of a function
binds the parameters and visits what is in the body, and an example visits its tree, with numbers of
its own. -/
namespace ScopeLint

open List

variable {cfg : Setup} {n : Node} {names : List Datum} {among : Node → Prop} {s t : State}

namespace NodeOf

def parameterSteps (n : Node) (names : List Datum) : List Step :=
  names.map fun name => .take n (.act (.bind n (.fresh name .argument (.node n)) false))

def bodySteps (cfg : Setup) (n : Node) (names : List Datum) : Except Fault (List Step) := do
  return n.parameterSteps names ++ (← Value.stepsOfAll cfg n n.deferred)

def childSteps (cfg : Setup) (n : Node) : Except Fault (List Step) :=
  Value.stepsOfAll cfg n (n.children.map .node)

variable {steps : List Step}

theorem bodySteps_eq_ok : n.bodySteps cfg names = .ok steps ↔
    ∃ rest, Value.stepsOfAll cfg n n.deferred = .ok rest ∧ steps = n.parameterSteps names ++ rest := by
  rw [bodySteps, ScopeLint.bind_eq_ok]
  constructor
  · rintro ⟨rest, hrest, h⟩
    cases h
    exact ⟨rest, hrest, rfl⟩
  · rintro ⟨rest, hrest, rfl⟩
    exact ⟨rest, hrest, rfl⟩

section Provenance

variable {below : Node → Node → Prop}
  (hclosed : ∀ m k, among m → .node k ∈ (m.taken cfg.dialect).map (·.2) → among k ∧ below k m)

include hclosed

theorem isOf_childSteps (h : n.childSteps cfg = .ok steps)
    (hn : ∀ m ∈ n.children, among m ∧ below m n) : ∀ step ∈ steps, step.IsOf cfg among below := by
  refine isOf_stepsOfAll hclosed h fun m hm => ?_
  obtain ⟨c, hc, heq⟩ := mem_map.mp hm
  cases heq
  exact hn m hc

theorem isOf_bodySteps (h : n.bodySteps cfg names = .ok steps) (hn : among n)
    (hdeferred : ∀ m, .node m ∈ n.deferred → among m ∧ below m n) :
    ∀ step ∈ steps, step.IsOf cfg among below := by
  obtain ⟨rest, hrest, rfl⟩ := bodySteps_eq_ok.mp h
  refine forall_mem_append.mpr ⟨fun step hstep => ?_, isOf_stepsOfAll hclosed hrest hdeferred⟩
  obtain ⟨name, -, rfl⟩ := mem_map.mp hstep
  exact ⟨hn, ⟨rfl, rfl, rfl⟩, fun _ h => nomatch h⟩

end Provenance

variable {d : Dialect} {k : Node}

theorem mem_below_of_mem_taken (h : .node k ∈ (n.taken d).map (·.2)) : k ∈ n.below :=
  (n.flatMap_parts_subperm d).subset (mem_flatMap.mpr
    ⟨_, mem_append_left _ ((n.taken_subperm d).subset h), k.self_mem_nodes⟩)

theorem mem_nodes_of_mem_taken (h : .node k ∈ (n.taken d).map (·.2)) : k ∈ n.nodes :=
  n.nodes_eq ▸ mem_cons_of_mem _ (mem_below_of_mem_taken h)

section Main

variable (hclosed : ∀ m, among m → ∀ k ∈ m.nodes, among k) (hn : among n)

include hclosed hn

theorem isFrom_childSteps (h : n.childSteps cfg = .ok steps) :
    ∀ step ∈ steps, step.IsFrom cfg among := by
  refine isOf_childSteps (fun m k hm hk => ?_) h fun m hm => ?_
  · have hk := hclosed m hm k (mem_nodes_of_mem_taken hk)
    exact ⟨hk, hk, hm⟩
  · have hm := hclosed n hn m (mem_nodes_of_mem_children hm)
    exact ⟨hm, hm, hn⟩

theorem isFrom_bodySteps (h : n.bodySteps cfg names = .ok steps) :
    ∀ step ∈ steps, step.IsFrom cfg among := by
  refine isOf_bodySteps (fun m k hm hk => ?_) h hn fun m hm => ?_
  · have hk := hclosed m hm k (mem_nodes_of_mem_taken hk)
    exact ⟨hk, hk, hm⟩
  · have hm := hclosed n hn m (mem_nodes_of_mem_children (mem_children_of_deferred hm))
    exact ⟨hm, hm, hn⟩

end Main

theorem height?_parameterSteps (n : Node) (names : List Datum) (k : Nat) :
    Step.height? k (n.parameterSteps names) = some k := by
  induction names with
  | nil => rfl
  | cons name rest ih =>
    rw [parameterSteps, map_cons, Step.height?_cons]
    exact ih

theorem height?_bodySteps (h : n.bodySteps cfg names = .ok steps) (k : Nat) :
    Step.height? k steps = some k := by
  obtain ⟨rest, hrest, rfl⟩ := bodySteps_eq_ok.mp h
  rw [Step.height?_append, height?_parameterSteps]
  exact height?_stepsOfAll hrest k

/-- Without a look at docstrings a body takes the same steps but for the work on docstrings. -/
theorem bodySteps_withDoctests (h : n.bodySteps (cfg.withDoctests true) names = .ok steps) :
    n.bodySteps (cfg.withDoctests false) names = .ok (steps.filter (!·.isDoctests)) := by
  obtain ⟨rest, hrest, rfl⟩ := bodySteps_eq_ok.mp h
  refine bodySteps_eq_ok.mpr ⟨_, stepsOfAll_withDoctests hrest, ?_⟩
  rw [filter_append]
  congr 1
  refine filter_eq_self.mpr fun step hstep => ?_
  obtain ⟨name, -, rfl⟩ := mem_map.mp hstep
  rfl

end NodeOf

namespace Check

theorem exists_childSteps (h : visitChildren (visit cfg) n s = .ok () t) :
    ∃ steps, n.childSteps cfg = .ok steps ∧ Step.runAll cfg steps s = .ok () t := by
  refine exists_stepsOfAll ?_
  rwa [visitAll_children]

theorem runAll_parameterSteps (cfg : Setup) (n : Node) (names : List Datum) :
    Step.runAll cfg (n.parameterSteps names) = bindParameters cfg n names :=
  forM_map

theorem visitAll_deferred (h : visitBody (visit cfg) n s = .ok () t) :
    visitAll (visit cfg) n n.deferred s = .ok () t := by
  obtain ⟨body, hbody, hvisit⟩ := lift_bind_eq_ok.mp h
  unfold NodeOf.deferred
  rw [hbody]
  cases body with
  | list items => exact hvisit
  | _ => exact bind_apply_eq_ok.mpr ⟨(), t, hvisit, rfl⟩

theorem exists_bodySteps_of_visit {r : State}
    (hparameters : bindParameters cfg n names s = .ok () r)
    (hvisit : visitAll (visit cfg) n n.deferred r = .ok () t) :
    ∃ steps, n.bodySteps cfg names = .ok steps ∧ Step.runAll cfg steps s = .ok () t := by
  rw [← runAll_parameterSteps] at hparameters
  obtain ⟨steps, hsteps, hrun⟩ := exists_stepsOfAll hvisit
  exact ⟨_, NodeOf.bodySteps_eq_ok.mpr ⟨steps, hsteps, rfl⟩,
    Step.runAll_append_eq_ok.mpr ⟨r, hparameters, hrun⟩⟩

/-- The body of a function takes its steps in a scope of its own, and the verdicts are put off. -/
theorem exists_bodySteps (h : runBody cfg (visit cfg) n names s = .ok () t) :
    ∃ steps u top rest entries, n.bodySteps cfg names = .ok steps ∧
      Step.runAll cfg steps (s.opened .function) = .ok () u ∧ u.stack = top :: rest ∧
      t = (u.finished n top entries (cfg.verdicts n)).closed top rest := by
  obtain ⟨r, u, v, hparameters, hvisit, hfinish, hpop⟩ := runBody_eq_ok h
  obtain ⟨steps, hsteps, hrun⟩ := exists_bodySteps_of_visit hparameters (visitAll_deferred hvisit)
  obtain ⟨top, rest, entries, hstack, -, rfl⟩ := finishBody_eq_ok hfinish
  obtain ⟨id, rest', hstack', rfl⟩ := popScope_eq_ok hpop
  obtain ⟨rfl, rfl⟩ := cons.inj (hstack.symm.trans hstack')
  exact ⟨steps, u, _, _, entries, hsteps, hrun, hstack, rfl⟩

theorem exists_exampleSteps {base : Shift} {docLine : Datum} {e : Example}
    (h : runExample cfg (visit cfg) n base docLine e s = .ok () t) :
    (∃ tree shift steps u, cfg.compile e.source = .tree tree ∧
      exampleShift base docLine e = .ok shift ∧
      (tree.numbered s.nextNode).1.childSteps cfg = .ok steps ∧
      Step.runAll cfg steps (s.forExample tree shift) = .ok () u ∧
      t = { u with shift := some base }) ∨ s.Says [.doctestSyntaxError] t := by
  rcases runExample_eq_ok h with ⟨tree, htree, h⟩ | ⟨_, _, _, _, position, -, -, h⟩
  · obtain ⟨shift, u, hshift, hvisit, rfl⟩ := visitExample_eq_ok h
    obtain ⟨steps, hsteps, hrun⟩ := exists_childSteps hvisit
    exact .inl ⟨tree, shift, steps, u, htree, hshift, hsteps, hrun, rfl⟩
  · exact .inr ((speaks_reportWith cfg (mem_singleton.mpr rfl) _ _).ok h)

end Check

/-- What a task does beside its steps: its scope is opened and closed, the nodes of an example get their
numbers, and what is put on record is that a body has come to its end, or verdicts. -/
structure State.Pauses (s t : State) : Prop where
  marks_eq : t.marks = s.marks
  functions_eq : t.functions = s.functions
  guards_eq : t.guards = s.guards
  futures_eq : t.futuresAllowed = s.futuresAllowed
  nextNode_le : s.nextNode ≤ t.nextNode
  notes : ∃ es, t.history = es ++ s.history ∧
    ∀ k args, .reported k args ∈ es → k ∈ Kind.doctestSyntaxError :: Kind.ofVerdicts

theorem State.Says.pauses {kinds : List Kind} (h : s.Says kinds t)
    (hkinds : kinds ⊆ Kind.doctestSyntaxError :: Kind.ofVerdicts) : s.Pauses t := by
  obtain ⟨es, hes, hnotes⟩ := h.notes
  exact ⟨h.alike.marks_eq, h.alike.functions_eq, h.alike.guards_eq, by rw [h.frame],
    Nat.le_of_eq h.alike.nextNode_eq.symm, es, hes, fun k args he => hkinds (hnotes _ he)⟩

/-- What the visits in a task keep, the task keeps. -/
theorem Check.runTask_visits {P : State → Prop} {task : Task}
    (hpause : ∀ s t, s.Pauses t → P s → P t)
    (hbody : ∀ n names r t, task = .body n names →
      bindParameters cfg n names (s.opened .function) = .ok () r →
      visitAll (visit cfg) n n.deferred r = .ok () t → P (s.opened .function) → P t)
    (hexample : ∀ n text examples e tree shift r t, task = .doctests n →
      n.docText = some text → Doctest.examples? text = some examples → e ∈ examples →
      cfg.compile e.source = .tree tree → Examples cfg (s.opened .function) r →
      visitChildren (visit cfg) (tree.numbered r.nextNode).1 (r.forExample tree shift) = .ok () t →
      P r → P t) (h : runTask cfg (visit cfg) task s = .ok () t) (hs : P s) : P t := by
  have hstart : P (s.opened .function) :=
    hpause s _ ⟨rfl, rfl, rfl, rfl, Nat.le_refl _, [], rfl, by simp⟩ hs
  cases task with
  | body n names =>
    obtain ⟨r, u, v, hparameters, hvisit, hfinish, hpop⟩ := runBody_eq_ok h
    obtain ⟨top, rest, entries, -, -, rfl⟩ := finishBody_eq_ok hfinish
    obtain ⟨id, rest, -, rfl⟩ := popScope_eq_ok hpop
    refine hpause u _ ⟨rfl, rfl, rfl, rfl, Nat.le_refl _, [_], rfl, by simp⟩ ?_
    exact hbody n names r u rfl hparameters (visitAll_deferred hvisit) hstart
  | doctests n =>
    obtain ⟨e, heq⟩ | ⟨found, -, -, heq⟩ | ⟨text, line, examples, hfound, hexamples, heq⟩ :=
      runDoctests_cases cfg (visit cfg) n s
    · cases heq.symm.trans h
    · cases heq.symm.trans h
      exact hs
    have htext : n.docText = some text := (State.docstringOf_eq_ok hfound).symm
    obtain ⟨u, hrun, hpop⟩ := inScope_eq_ok (heq.symm.trans h)
    obtain ⟨id, rest, -, rfl⟩ := popScope_eq_ok hpop
    refine hpause u _ ⟨rfl, rfl, rfl, rfl, Nat.le_refl _, [], rfl, by simp⟩ ?_
    -- the examples one after another
    have hall (es : List Example) (hes : es ⊆ examples) {r : State} (hr : P r)
        (hdone : Examples cfg (s.opened .function) r)
        (hrun : es.forM (runExample cfg (visit cfg) n (s.shift.getD (.of 0 0)) line) r = .ok () u) :
        P u := by
      induction es generalizing r with
      | nil =>
        cases hrun
        exact hr
      | cons e rest ih =>
        obtain ⟨_, v, hfirst, hrest⟩ := bind_apply_eq_ok.mp hrun
        have hone : Examples cfg r v :=
          (examples_runExample (fun _ _ _ hv => follows_visit hv) n _ line e).ok hfirst
        refine ih (subset_of_cons_subset hes) ?_ (hdone.next hone) hrest
        rcases runExample_eq_ok hfirst with ⟨tree, htree, h⟩ | ⟨_, _, _, _, position, -, -, h⟩
        · obtain ⟨shift, w, -, hvisit, rfl⟩ := visitExample_eq_ok h
          refine hpause w _ ⟨rfl, rfl, rfl, rfl, Nat.le_refl _, [], rfl, by simp⟩ ?_
          exact hexample n text examples e tree shift r w rfl htext hexamples (hes mem_cons_self)
            htree hdone hvisit hr
        · have hspeech := (speaks_reportWith cfg (mem_singleton.mpr rfl) _ _).ok h
          exact hpause r v (hspeech.pauses (by simp)) hr
    exact hall examples (List.Subset.refl _) hstart .done hrun
  | assignments | returns =>
    have hspeech : s.Says Kind.ofVerdicts t := (speaks_verdict rfl).ok h
    exact hpause s t (hspeech.pauses (subset_cons_self _ _)) hs

/-- What its steps keep, a task keeps. -/
theorem Check.runTask_invariant {P : State → Prop} {task : Task}
    (hpause : ∀ s t, s.Pauses t → P s → P t)
    (hbody : ∀ n names steps s t, task = .body n names → n.bodySteps cfg names = .ok steps →
      Step.runAll cfg steps s = .ok () t → P s → P t)
    (hexample : ∀ n text examples e tree shift steps s t, task = .doctests n →
      n.docText = some text → Doctest.examples? text = some examples → e ∈ examples →
      cfg.compile e.source = .tree tree →
      (tree.numbered s.nextNode).1.childSteps cfg = .ok steps →
      Step.runAll cfg steps (s.forExample tree shift) = .ok () t → P s → P t)
    (h : runTask cfg (visit cfg) task s = .ok () t) (hs : P s) : P t := by
  refine runTask_visits hpause (fun n names r u htask hparameters hvisit hstart => ?_)
    (fun n text examples e tree shift r u htask htext hexamples he htree _ hvisit hr => ?_) h hs
  · obtain ⟨steps, hsteps, hrun⟩ := exists_bodySteps_of_visit hparameters hvisit
    exact hbody n names steps _ u htask hsteps hrun hstart
  · obtain ⟨steps, hsteps, hrun⟩ := exists_childSteps hvisit
    exact hexample n text examples e tree shift steps r u htask htext hexamples he htree hsteps hrun hr

end ScopeLint
