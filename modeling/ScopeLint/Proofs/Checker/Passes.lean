import Mathlib.Logic.Relation
import ScopeLint.Checker.Run
import ScopeLint.Proofs.Checker.Shape

/-! # The course of a run

A run is a walk over the tree, and then one task after another, each in the state that it was put
off in. To look at a run at any moment, it is stopped there. -/
namespace ScopeLint

open Check

namespace State

def resumed (s : State) (q : Queue) (i : Nat) (d : Deferred) : State :=
  { s with stack := d.stack, shift := d.shift, borrowed := some (q, i) }

def forExample (s : State) (tree : Node) (shift : Shift) : State :=
  { s with nextNode := (tree.numbered s.nextNode).2, shift := some shift }

/-- The state after the body of `n` has been gone through, where `top` is the scope of the body: the
verdicts on the function have been put off. -/
def finished (s : State) (n : Node) (top : ScopeId) (entries : Array Deferred)
    (verdicts : List Task) : State :=
  { s with
    assignments := some (entries ++
      (verdicts.map fun task => Deferred.mk task s.stack s.shift).toArray)
    history := .body n top :: s.history }

end State

/-- Whether a task only says something about what has been seen. -/
def Task.isVerdict : Task → Bool
  | .assignments | .returns _ => true
  | .body _ _ | .doctests _ => false

/-- The verdicts on a function, which are put off at the end of its body. -/
def Setup.verdicts (cfg : Setup) (n : Node) : List Task :=
  .assignments :: if cfg.dialect.isTwo then [.returns n] else []

def Kind.ofVerdicts : List Kind := [unusedVariable, returnInGenerator]

/-- From one state to another by examples of a docstring. -/
inductive Examples (cfg : Setup) : State → State → Prop where
  | done {s} : Examples cfg s s
  | next {s t u} : Examples cfg s t → Examples cfg t u → Examples cfg s u
  | speech {s t} : s.Says Kind.walked t → Examples cfg s t
  | tree {s t} (tree : Node) (shift back : Shift) :
      Course cfg (tree.numbered s.nextNode).1 ((tree.numbered s.nextNode).1.children.map .node)
        (s.forExample tree shift) t →
      Examples cfg s { t with shift := some back }

/-- From one state to another by a first part of examples. -/
inductive ExamplesCut (cfg : Setup) : State → State → Prop where
  | here {s} : ExamplesCut cfg s s
  | next {s t u} : Examples cfg s t → ExamplesCut cfg t u → ExamplesCut cfg s u
  | speech {s t} : s.Says Kind.walked t → ExamplesCut cfg s t
  | tree {s t} (tree : Node) (shift : Shift) :
      Cut cfg (tree.numbered s.nextNode).1 ((tree.numbered s.nextNode).1.children.map .node)
        (s.forExample tree shift) t →
      ExamplesCut cfg s t

def Ending.examples (cfg : Setup) : Ending :=
  ⟨Examples cfg, ExamplesCut cfg, fun _ => .done, fun _ => .here, .next, .next⟩

/-- A task of the queue `q`: the body of a function, the examples of a docstring, or a verdict. -/
inductive Stroke (cfg : Setup) (q : Queue) : State → State → Prop where
  | body {s r u v t i d n names} : s.Entry q i d → d.task = .body n names →
      bindParameters cfg n names ((s.resumed q i d).opened .function) = .ok () r →
      Course cfg n n.deferred r u → finishBody cfg n u = .ok () v →
      popScope v = .ok () t → Stroke cfg q s t
  | doctests {s t u i d} : s.Entry q i d → Examples cfg ((s.resumed q i d).opened .function) t →
      popScope t = .ok () u → Stroke cfg q s u
  | idle {s i d} : s.Entry q i d → Stroke cfg q s (s.resumed q i d)
  | verdict {s t i d} : s.Entry q i d → d.task.isVerdict = true →
      (s.resumed q i d).Says Kind.ofVerdicts t → Stroke cfg q s t

/-- A first part of the walk over the tree or of a task. -/
inductive StrokeCut (cfg : Setup) : State → State → Prop where
  | here {s} : StrokeCut cfg s s
  | walk {next t} : Cut cfg cfg.root (cfg.root.children.map .node) (State.initial next) t →
      StrokeCut cfg (State.initial next) t
  | parameters {s t q i d n names e} : s.Entry q i d → d.task = .body n names →
      bindParameters cfg n names ((s.resumed q i d).opened .function) = .error e t →
      StrokeCut cfg s t
  | body {s r t q i d n names} : s.Entry q i d → d.task = .body n names →
      bindParameters cfg n names ((s.resumed q i d).opened .function) = .ok () r →
      Cut cfg n n.deferred r t → StrokeCut cfg s t
  | doctests {s t q i d} : s.Entry q i d →
      ExamplesCut cfg ((s.resumed q i d).opened .function) t → StrokeCut cfg s t
  | verdict {s t q i d} : s.Entry q i d → (s.resumed q i d).Says Kind.ofVerdicts t →
      StrokeCut cfg s t

abbrev Strokes (cfg : Setup) (q : Queue) : State → State → Prop :=
  Relation.ReflTransGen (Stroke cfg q)

def Ending.strokes (cfg : Setup) (q : Queue) : Ending where
  ok := Strokes cfg q
  fail s t := ∃ r, Strokes cfg q s r ∧ StrokeCut cfg r t
  refl _ := .refl
  fail_refl s := ⟨s, .refl, .here⟩
  trans := .trans
  fail_trans := fun h ⟨r, hr, ht⟩ => ⟨r, h.trans hr, ht⟩

namespace Check

variable {cfg : Setup} {s t : State} {n : Node} {e : Fault} {visit : Visit} {names : List Datum}

theorem steady_bindParameters (cfg : Setup) (n : Node) (names : List Datum) :
    Steady (bindParameters cfg n names) :=
  ends_forM fun _ _ => steady_bind cfg n _ false

theorem mild_bindParameters (cfg : Setup) (n : Node) (names : List Datum) :
    Mild (bindParameters cfg n names) :=
  (steady_bindParameters cfg n names).mild

private theorem push_push {α : Type} (xs : Array α) (a b : α) : (xs.push a).push b = xs ++ #[a, b] := by
  simp [← Array.toList_inj]

theorem finishBody_eq_ok (h : finishBody cfg n s = .ok () t) :
    ∃ top rest entries, s.stack = top :: rest ∧ s.assignments = some entries ∧
      t = s.finished n top entries (cfg.verdicts n) := by
  obtain ⟨⟨top, scope⟩, t₁, hcurrent, hdefers⟩ := bind_apply_eq_ok.mp h
  obtain ⟨rfl, ⟨rest, hstack⟩, -⟩ := current_eq_ok hcurrent
  obtain ⟨_, t₂, hdefer, hrest⟩ := bind_apply_eq_ok.mp hdefers
  obtain ⟨entries, hentries, rfl⟩ := defer_eq_ok hdefer
  refine ⟨top, rest, entries, hstack, hentries, ?_⟩
  obtain ⟨_, t₃, hrecord, hreturns⟩ := bind_apply_eq_ok.mp hrest
  cases hrecord
  split at hreturns
  · rename_i htwo
    obtain ⟨more, hmore, rfl⟩ := defer_eq_ok hreturns
    cases hmore
    simp [State.finished, Setup.verdicts, htwo, State.withTask, State.setQueue, push_push]
  · rename_i htwo
    cases hreturns
    simp [State.finished, Setup.verdicts, htwo, State.withTask, State.setQueue]

theorem finishBody_eq_error (h : finishBody cfg n s = .error e t) : t = s := by
  rcases bind_apply_eq_error.mp h with hcurrent | ⟨⟨top, scope⟩, t₁, hcurrent, hdefers⟩
  · exact reads_current.fail hcurrent
  obtain ⟨rfl, -⟩ := current_eq_ok hcurrent
  rcases bind_apply_eq_error.mp hdefers with hdefer | ⟨_, t₂, hdefer, hrest⟩
  · exact defer_eq_error hdefer
  obtain ⟨entries, -, rfl⟩ := defer_eq_ok hdefer
  rcases bind_apply_eq_error.mp hrest with hrecord | ⟨_, t₃, hrecord, hreturns⟩
  · cases hrecord
  cases hrecord
  split at hreturns <;> cases hreturns

theorem runBody_eq_ok (h : runBody cfg visit n names s = .ok () t) :
    ∃ r u v, bindParameters cfg n names (s.opened .function) = .ok () r ∧
      visitBody visit n r = .ok () u ∧ finishBody cfg n u = .ok () v ∧ popScope v = .ok () t := by
  obtain ⟨v, h, hpop⟩ := inScope_eq_ok h
  obtain ⟨_, r, hparameters, h⟩ := bind_apply_eq_ok.mp h
  obtain ⟨_, u, hvisit, hfinish⟩ := bind_apply_eq_ok.mp h
  exact ⟨r, u, v, hparameters, hvisit, hfinish, hpop⟩

/-- The scope of a body is still open where the body ends, so that only its steps can fail. -/
theorem runBody_eq_error (h : runBody cfg visit n names s = .error e t) :
    bindParameters cfg n names (s.opened .function) = .error e t ∨
      ∃ r, bindParameters cfg n names (s.opened .function) = .ok () r ∧
        (visitBody visit n r = .error e t ∨ visitBody visit n r = .ok () t) := by
  rcases inScope_eq_error h with h | ⟨h, hpop⟩
  · rcases bind_apply_eq_error.mp h with hparameters | ⟨_, r, hparameters, h⟩
    · exact .inl hparameters
    rcases bind_apply_eq_error.mp h with hvisit | ⟨_, u, hvisit, hfinish⟩
    · exact .inr ⟨r, hparameters, .inl hvisit⟩
    · obtain rfl := finishBody_eq_error hfinish
      exact .inr ⟨r, hparameters, .inr hvisit⟩
  · obtain ⟨_, r, -, h⟩ := bind_apply_eq_ok.mp h
    obtain ⟨_, u, -, hfinish⟩ := bind_apply_eq_ok.mp h
    obtain ⟨top, rest, entries, hstack, -, rfl⟩ := finishBody_eq_ok hfinish
    simp [popScope, State.finished, hstack] at hpop

end Check

/-- What is done about the docstring of a definition: it cannot be read, it has no examples that are
checked, or its examples are gone through in a scope of their own. -/
theorem Check.runDoctests_cases (cfg : Setup) (visit : Check.Visit) (n : Node) (s : State) :
    (∃ e, runDoctests cfg visit n s = .error e s) ∨
    (∃ found, s.docstringOf n = .ok found ∧ found.bind (Doctest.examples? ·.1) = none ∧
      runDoctests cfg visit n s = .ok () s) ∨
    ∃ text line examples, s.docstringOf n = .ok (some (text, line)) ∧
      Doctest.examples? text = some examples ∧
      runDoctests cfg visit n s = inScope .function
        (examples.forM (runExample cfg visit n (s.shift.getD (.of 0 0)) line)) s := by
  cases hdoc : s.docstringOf n with
  | error e => exact .inl ⟨e, by simp [runDoctests, hdoc, lift]⟩
  | ok found =>
    cases found with
    | none => exact .inr (.inl ⟨none, rfl, rfl, by simp [runDoctests, hdoc, lift]⟩)
    | some doc =>
      obtain ⟨text, line⟩ := doc
      cases hexamples : Doctest.examples? text with
      | none =>
        refine .inr (.inl ⟨_, rfl, hexamples, ?_⟩)
        simp [runDoctests, hdoc, lift, hexamples]
      | some examples =>
        refine .inr (.inr ⟨text, line, examples, rfl, hexamples, ?_⟩)
        simp [runDoctests, hdoc, lift, hexamples]

section Growth

variable {cfg : Setup} {q : Queue} {s t : State} {entries : Array Deferred} {i : Nat} {d : Deferred}

theorem State.grows_resumed (s : State) (q : Queue) (i : Nat) (d : Deferred) :
    s.Grows (s.resumed q i d) :=
  .of_eq rfl (fun _ => rfl) (fun other => by cases other <;> rfl) id

theorem State.grows_forExample (s : State) (tree : Node) (shift : Shift) :
    s.Grows (s.forExample tree shift) :=
  .of_eq rfl (fun _ => rfl) (fun q => by cases q <;> rfl) id

/-- What holds across speech, across a course, and where the shift is set for an example and set back,
holds across examples. -/
theorem Examples.induces {R : State → State → Prop} (hrefl : ∀ s, R s s)
    (htrans : ∀ {s t u}, R s t → R t u → R s u) (hspeech : ∀ {s t}, s.Says Kind.walked t → R s t)
    (hstart : ∀ s tree shift, R s (s.forExample tree shift))
    (hcourse : ∀ {n vs s t}, Course cfg n vs s t → R s t)
    (hback : ∀ s shift, R s { s with shift := some shift }) (h : Examples cfg s t) : R s t := by
  induction h with
  | done => exact hrefl _
  | next _ _ ih ih' => exact htrans ih ih'
  | speech h => exact hspeech h
  | tree tree shift back h => exact htrans (htrans (hstart _ tree shift) (hcourse h)) (hback _ back)

theorem Examples.grows (h : Examples cfg s t) : s.Grows t :=
  h.induces .refl .trans (·.alike.grows) State.grows_forExample Course.grows
    fun _ _ => .of_eq rfl (fun _ => rfl) (fun q => by cases q <;> rfl) id

theorem State.entry_finished {n : Node} {top : ScopeId} (h : s.assignments = some entries)
    {verdicts : List Task} :
    (s.finished n top entries verdicts).Entry q i d ↔ s.Entry q i d ∨
      (q = .assignments ∧ entries.size ≤ i ∧
        ∃ task, verdicts[i - entries.size]? = some task ∧ d = ⟨task, s.stack, s.shift⟩) := by
  cases q with
  | functions => simp [Entry, queue, finished]
  | assignments =>
    simp only [Entry, queue, finished, h, Option.some.injEq, exists_eq_left', true_and]
    by_cases hi : i < entries.size
    · simp [Array.getElem?_append_left hi, Nat.not_le_of_lt hi]
    · have hsize := Nat.le_of_not_lt hi
      rw [Array.getElem?_append_right hsize, Array.getElem?_eq_none hsize]
      simp [hsize, Option.map_eq_some_iff, @eq_comm _ d]

theorem State.grows_finished (n : Node) (top : ScopeId) (h : s.assignments = some entries)
    (verdicts : List Task) :
    s.Grows (s.finished n top entries verdicts) where
  size_le := Nat.le_refl _
  kindOf_eq := fun _ _ => rfl
  entry := fun _ _ _ hd => (State.entry_finished h).mpr (.inl hd)
  futures := id

theorem State.grows_parameters {r : State}
    (h : ((s.resumed q i d).opened .function).Alike r) : s.Grows r :=
  ((s.grows_resumed q i d).trans (State.grows_opened _ .function)).trans h.grows

theorem Stroke.grows (h : Stroke cfg q s t) : s.Grows t := by
  cases h with
  | @body r u v _ i d n names _ _ hparameters hcourse hfinish hpop =>
    obtain ⟨top, rest, entries, -, hentries, rfl⟩ := finishBody_eq_ok hfinish
    obtain ⟨id, rest, -, rfl⟩ := popScope_eq_ok hpop
    have hr := State.grows_parameters ((mild_bindParameters cfg n names).ok hparameters)
    have hfinished := State.grows_finished n top hentries (cfg.verdicts n)
    exact ((hr.trans hcourse.grows).trans hfinished).trans (State.grows_closed _ id rest)
  | doctests _ h hp =>
    obtain ⟨id, rest, -, rfl⟩ := popScope_eq_ok hp
    have hopen := (State.grows_opened _ .function).trans h.grows
    exact ((s.grows_resumed _ _ _).trans hopen).trans (State.grows_closed _ id rest)
  | idle _ => exact s.grows_resumed _ _ _
  | verdict _ _ h => exact (s.grows_resumed _ _ _).trans h.alike.grows

theorem Strokes.grows (h : Strokes cfg q s t) : s.Grows t := by
  induction h with
  | refl => exact .refl _
  | tail _ h ih => exact ih.trans h.grows

end Growth

/-- The states between the parts of a run, where `next` is the first number for further nodes. -/
inductive Run (cfg : Setup) (next : Nat) : State → Prop where
  | start : Run cfg next (State.initial next)
  | walk {t} : Course cfg cfg.root (cfg.root.children.map .node) (State.initial next) t →
      Run cfg next t
  | stroke {q s t} : Run cfg next s → Stroke cfg q s t → Run cfg next t
  | close {s} : Run cfg next s → Run cfg next { s with functions := none }

variable {cfg : Setup} {s t : State} {q : Queue} {next : Nat} {n : Node}

theorem Run.strokes (hs : Run cfg next s) (h : Strokes cfg q s t) : Run cfg next t := by
  induction h with
  | refl => exact hs
  | tail _ h ih => exact ih.stroke h

section Outline

theorem Examples.outline (h : Examples cfg s t) :
    t.stack = s.stack ∧ t.guards = s.guards ∧ t.depth = s.depth := by
  induction h with
  | done => exact ⟨rfl, rfl, rfl⟩
  | next _ _ ih ih' => exact ⟨ih'.1.trans ih.1, ih'.2.1.trans ih.2.1, ih'.2.2.trans ih.2.2⟩
  | speech h => exact ⟨h.alike.stack_eq, h.alike.guards_eq, h.alike.depth_eq⟩
  | tree tree shift back h => exact ⟨h.level.stack_eq, h.level.guards_eq, h.level.depth_eq⟩

theorem Examples.stack_eq (h : Examples cfg s t) : t.stack = s.stack := h.outline.1

theorem Stroke.outline (h : Stroke cfg q s t) : t.guards = s.guards ∧ t.depth = s.depth := by
  cases h with
  | body _ _ hparameters hcourse hfinish hpop =>
    have halike := (mild_bindParameters _ _ _).ok hparameters
    obtain ⟨top, _, entries, -, -, rfl⟩ := finishBody_eq_ok hfinish
    obtain ⟨id, rest, -, rfl⟩ := popScope_eq_ok hpop
    exact ⟨hcourse.level.guards_eq.trans halike.guards_eq,
      hcourse.level.depth_eq.trans halike.depth_eq⟩
  | doctests _ h hpop =>
    obtain ⟨id, rest, -, rfl⟩ := popScope_eq_ok hpop
    exact h.outline.2
  | idle _ => exact ⟨rfl, rfl⟩
  | verdict _ _ h => exact ⟨h.alike.guards_eq, h.alike.depth_eq⟩

/-- Between the parts of a run no handlers are around, and no node is. -/
theorem Run.outline (h : Run cfg next s) : s.guards = [.list []] ∧ s.depth = 0 := by
  induction h with
  | start => exact ⟨rfl, rfl⟩
  | walk h => exact ⟨h.level.guards_eq, h.level.depth_eq⟩
  | stroke _ h ih => exact ⟨h.outline.1.trans ih.1, h.outline.2.trans ih.2⟩
  | close _ ih => exact ih

end Outline

namespace Check

/-- A moment of a run: before and after the visit of a value, and when a node has got its place. -/
inductive Moment where
  | before (v : Value) (parent : Node)
  | within (n : Node)
  | after (v : Value) (parent : Node)

/-- Stops at a moment if it is told to. -/
def pause (stop : Moment → State → Bool) (m : Moment) : Check Unit := do
  if stop m (← get) then throw .endless

def visitUntilWithin (cfg : Setup) (stop : Moment → State → Bool) : Nat → Visit
  | 0 => fun v _ => if v.isNull then return else throw .endless
  | fuel + 1 => fun v parent => do
    pause stop (.before v parent)
    visitOne cfg (fun n => do
      pause stop (.within n)
      handleNode cfg (visitUntilWithin cfg stop fuel) n) v parent
    pause stop (.after v parent)

def visitUntil (cfg : Setup) (stop : Moment → State → Bool) : Visit := fun v parent =>
  visitUntilWithin cfg stop v.size v parent

/-- The state in which a run is, the depth aside, when it stops where it is told to, when it fails
before that, or when it has got through. -/
def reached (cfg : Setup) (stop : Moment → State → Bool) (next : Nat) : State :=
  match passes cfg (visitUntil cfg stop) (State.initial next) with
  | .ok _ t => t
  | .error _ t => t

theorem visitUntilWithin_never (cfg : Setup) (fuel : Nat) :
    visitUntilWithin cfg (fun _ _ => false) fuel = visitWithin cfg fuel := by
  have hpause (m : Moment) : pause (fun _ _ => false) m = pure () := rfl
  induction fuel with
  | zero => rfl
  | succ fuel ih =>
    funext v parent
    simp [visitUntilWithin, visitWithin, hpause, ih]

/-- A visit that is never stopped is the visit. -/
theorem visitUntil_never (cfg : Setup) : visitUntil cfg (fun _ _ => false) = visit cfg := by
  funext v parent
  rw [visitUntil, visitUntilWithin_never, visit]

section Visits

variable {vs : List Value} {w : Ending} {v : Value}

theorem ends_pause (stop : Moment → State → Bool) (m : Moment) : Ends w (pause stop m) := by
  refine ends_get.bind fun s => ?_
  split
  · exact ends_throw _
  · exact ends_pure _

theorem follows_visitUntilWithin (stop : Moment → State → Bool) (fuel : Nat) (hmem : v ∈ vs) :
    Follows cfg n vs (visitUntilWithin cfg stop fuel v n) := by
  induction fuel generalizing n vs v with
  | zero =>
    rw [visitUntilWithin]
    dsimp only
    split
    · exact ends_pure _
    · exact ends_throw _
  | succ fuel ih =>
    have hhandle (m : Node) : Follows cfg m (m.handed cfg.dialect) (do
        pause stop (.within m)
        handleNode cfg (visitUntilWithin cfg stop fuel) m) :=
      (ends_pause stop _).bind fun _ => follows_handleNode fun v hv => ih hv
    refine (ends_pause stop _).bind fun _ => ?_
    exact (follows_visitOne hhandle hmem).bind fun _ => ends_pause stop _

/-- Every visit follows a course, also one that is stopped. -/
theorem follows_visitUntil (stop : Moment → State → Bool) (hmem : v ∈ vs) :
    Follows cfg n vs (visitUntil cfg stop v n) :=
  follows_visitUntilWithin stop v.size hmem

theorem follows_visit (hmem : v ∈ vs) : Follows cfg n vs (visit cfg v n) := by
  rw [← visitUntil_never]
  exact follows_visitUntil _ hmem

end Visits

section Trees

variable {visit : Visit} {base : Shift} {docLine : Datum} {e : Example} {tree : Node}

/-- The tree of an example is visited with numbers of its own, once it is known where it belongs. -/
theorem visitExample_eq_ok (h : visitExample visit base docLine e tree s = .ok () t) :
    ∃ shift u, exampleShift base docLine e = .ok shift ∧
      visitChildren visit (tree.numbered s.nextNode).1 (s.forExample tree shift) = .ok () u ∧
      t = { u with shift := some base } := by
  obtain ⟨shift, hshift, h⟩ := lift_bind_eq_ok.mp h
  replace h := get_bind_eq_ok.mp h
  obtain ⟨_, r, hmodify, h⟩ := bind_apply_eq_ok.mp h
  cases hmodify
  obtain ⟨_, u, hvisit, hback⟩ := bind_apply_eq_ok.mp h
  cases hback
  exact ⟨shift, u, hshift, hvisit, rfl⟩

theorem visitExample_eq_error {fault : Fault}
    (h : visitExample visit base docLine e tree s = .error fault t) :
    t = s ∨ ∃ shift, exampleShift base docLine e = .ok shift ∧
      visitChildren visit (tree.numbered s.nextNode).1 (s.forExample tree shift) =
        .error fault t := by
  obtain ⟨-, rfl⟩ | ⟨shift, hshift, h⟩ := lift_bind_eq_error.mp h
  · exact .inl rfl
  rcases bind_apply_eq_error.mp h with hget | ⟨_, r, hget, h⟩
  · cases hget
  cases hget
  rcases bind_apply_eq_error.mp h with hmodify | ⟨_, r, hmodify, h⟩
  · cases hmodify
  cases hmodify
  rcases bind_apply_eq_error.mp h with hvisit | ⟨_, u, -, hback⟩
  · exact .inr ⟨shift, hshift, hvisit⟩
  · cases hback

end Trees

section Tasks

variable {visit : Visit}
  (hv : ∀ (n : Node) (vs : List Value), ∀ v ∈ vs, Follows cfg n vs (visit v n))

include hv

theorem follows_visitBody (n : Node) : Follows cfg n n.deferred (visitBody visit n) := by
  refine ends_lift_bind fun body hbody => ?_
  unfold NodeOf.deferred
  rw [hbody]
  cases body with
  | list items => exact follows_visitAll (hv n items) fun _ h => h
  | _ => exact hv n _ _ (List.mem_singleton.mpr rfl)

theorem examples_visitExample (base : Shift) (docLine : Datum) (e : Example) (tree : Node) :
    Ends (.examples cfg) (visitExample visit base docLine e tree) := by
  have hchildren (numbered : Node) := follows_visitChildren (n := numbered)
    (hv _ (numbered.children.map .node)) fun _ h => h
  refine ends_of (fun s _ t h => ?_) fun s e t h => ?_
  · obtain ⟨shift, u, -, hvisit, rfl⟩ := visitExample_eq_ok h
    exact .tree tree shift base ((hchildren _).ok hvisit)
  · obtain rfl | ⟨shift, -, hvisit⟩ := visitExample_eq_error h
    · exact .here
    · exact .tree tree shift ((hchildren _).fail hvisit)

theorem examples_runExample (n : Node) (base : Shift) (docLine : Datum) (e : Example) :
    Ends (.examples cfg) (runExample cfg visit n base docLine e) := by
  unfold runExample
  split
  · exact examples_visitExample hv base docLine e _
  · refine (ends_lift _).bind fun position => (reads_datum _).ends.bind fun d => ?_
    have hkind : .doctestSyntaxError ∈ Kind.walked := by simp [Kind.walked]
    have hreport := speaks_reportWith cfg hkind [d, position] []
    exact ends_of (fun _ _ _ h => .speech (hreport.ok h)) fun _ _ _ h => .speech (hreport.fail h)
  · exact ends_throw _

theorem examples_runDoctests (n : Node) (base : Shift) (docLine : Datum) (examples : List Example) :
    Ends (.examples cfg) (examples.forM (runExample cfg visit n base docLine)) :=
  ends_forM fun e _ => examples_runExample hv n base docLine e

end Tasks

section Strokes

variable {i : Nat} {d : Deferred} {act : Check Unit}

/-- Takes up the task `d` again and does something for it. -/
private def resume (q : Queue) (i : Nat) (d : Deferred) (act : Check Unit) : Check Unit := do
  modify fun s => { s with stack := d.stack, shift := d.shift, borrowed := some (q, i) }
  act

private theorem resume_apply (act : Check Unit) : resume q i d act s = act (s.resumed q i d) := rfl

private theorem strokes_of (hok : ∀ t, act (s.resumed q i d) = .ok () t → Stroke cfg q s t)
    (hfail : ∀ e t, act (s.resumed q i d) = .error e t → StrokeCut cfg s t) :
    EndsAt (.strokes cfg q) (resume q i d act) s := by
  rw [EndsAt, Lands, resume_apply]
  cases ha : act (s.resumed q i d) with
  | ok u t => exact .single (hok t ha)
  | error e t => exact ⟨s, .refl, hfail e t ha⟩

theorem speaks_verdict {visit : Visit} {task : Task} (h : task.isVerdict = true) :
    Speaks Kind.ofVerdicts (runTask cfg visit task) := by
  cases task with
  | body | doctests => cases h
  | assignments => exact (told_reportUnusedAssignments (by simp [Kind.ofVerdicts])).ends cfg
  | returns n => exact (told_reportReturns (by simp [Kind.ofVerdicts]) n).ends cfg

private theorem strokes_verdict (he : s.Entry q i d) (hd : d.task.isVerdict = true)
    (h : Speaks Kind.ofVerdicts act) : EndsAt (.strokes cfg q) (resume q i d act) s :=
  strokes_of (fun _ ha => .verdict he hd (h.ok ha)) fun _ _ ha => .verdict he (h.fail ha)

private theorem strokes_inScope (he : s.Entry q i d) (h : Ends (.examples cfg) act) :
    EndsAt (.strokes cfg q) (resume q i d (inScope .function act)) s := by
  refine strokes_of (fun t ha => ?_) fun e t ha => ?_
  · obtain ⟨u, hact, hpop⟩ := inScope_eq_ok ha
    exact .doctests he (h.ok hact) hpop
  · rcases inScope_eq_error ha with hact | ⟨hact, -⟩
    · exact .doctests he (h.fail hact)
    · exact .doctests he (.next (h.ok hact) .here)

private theorem strokes_idle (he : s.Entry q i d)
    (h : act (s.resumed q i d) = .ok () (s.resumed q i d)) :
    EndsAt (.strokes cfg q) (resume q i d act) s := by
  rw [EndsAt, Lands, resume_apply, h]
  exact .single (.idle he)

private theorem strokes_congr {other : Check Unit}
    (h : act (s.resumed q i d) = other (s.resumed q i d))
    (ho : EndsAt (.strokes cfg q) (resume q i d other) s) :
    EndsAt (.strokes cfg q) (resume q i d act) s := by
  rw [EndsAt, Lands, resume_apply] at ho ⊢
  rwa [h]

variable {visit : Visit}
  (hv : ∀ (n : Node) (vs : List Value), ∀ v ∈ vs, Follows cfg n vs (visit v n))

include hv

private theorem strokes_runDoctests (he : s.Entry q i d) (n : Node) :
    EndsAt (.strokes cfg q) (resume q i d (runDoctests cfg visit n)) s := by
  obtain ⟨e, heq⟩ | ⟨found, -, -, heq⟩ | ⟨text, line, examples, -, -, heq⟩ :=
    runDoctests_cases cfg visit n (s.resumed q i d)
  · refine strokes_of (fun t ha => ?_) fun e' t ha => ?_
    · rw [heq] at ha
      cases ha
    · rw [heq] at ha
      cases ha
      exact .verdict he (.refl _)
  · exact strokes_idle he heq
  · exact strokes_congr heq (strokes_inScope he (examples_runDoctests hv n
      ((s.resumed q i d).shift.getD (.of 0 0)) line examples))

private theorem strokes_runBody (he : s.Entry q i d) {names : List Datum}
    (ht : d.task = .body n names) :
    EndsAt (.strokes cfg q) (resume q i d (runBody cfg visit n names)) s := by
  have hbody := follows_visitBody hv n
  refine strokes_of (fun t ha => ?_) fun e t ha => ?_
  · obtain ⟨r, u, v, hparameters, hvisit, hfinish, hpop⟩ := runBody_eq_ok ha
    exact .body he ht hparameters (hbody.ok hvisit) hfinish hpop
  · rcases runBody_eq_error ha with hparameters | ⟨r, hparameters, hvisit | hvisit⟩
    · exact .parameters he ht hparameters
    · exact .body he ht hparameters (hbody.fail hvisit)
    · exact .body he ht hparameters (.next (hbody.ok hvisit) .here)

/-- One task is one part of a run. -/
private theorem strokes_runTask (he : s.Entry q i d) :
    EndsAt (.strokes cfg q) (resume q i d (runTask cfg visit d.task)) s := by
  cases ht : d.task with
  | body n names => exact strokes_runBody hv he ht
  | doctests n => exact strokes_runDoctests hv he n
  | assignments | returns =>
    exact strokes_verdict he (by simp [ht, Task.isVerdict]) (speaks_verdict rfl)

theorem strokes_runEntries (i : Nat) (entries : List Deferred) (s : State)
    (he : ∀ k d, entries[k]? = some d → s.Entry q (i + k) d) :
    EndsAt (.strokes cfg q) (runEntries cfg visit q i entries) s := by
  induction entries generalizing i s with
  | nil => exact ends_pure _ s
  | cons d rest ih =>
    have htask := strokes_runTask hv (he 0 d rfl)
    have hrun : runEntries cfg visit q i (d :: rest) =
        (resume q i d (runTask cfg visit d.task) >>= fun _ => runEntries cfg visit q (i + 1) rest) := by
      simp [runEntries, resume]
    rw [hrun]
    refine htask.bind fun _ t ht => ih (i + 1) t fun k e hk => ?_
    have hnext := (htask.ok ht : Strokes cfg q s t).grows.entry q (i + (k + 1)) e (he (k + 1) e hk)
    rwa [show i + 1 + k = i + (k + 1) by omega]

theorem strokes_drainWithin (fuel done : Nat) (s : State) :
    EndsAt (.strokes cfg q) (drainWithin cfg visit q fuel done) s := by
  induction fuel generalizing done s with
  | zero =>
    rw [drainWithin]
    refine (ends_get s).bind fun r t hget => ?_
    split
    · exact ends_throw _ t
    · dsimp only
      split
      · exact ends_pure _ t
      · exact ends_throw _ t
  | succ fuel ih =>
    rw [drainWithin]
    refine (ends_get s).bind fun r t hget => ?_
    cases hget
    split
    · exact ends_throw _ s
    · rename_i entries hentries
      dsimp only
      split
      · exact ends_pure _ s
      · refine (strokes_runEntries hv done _ s fun k d hk => ?_).bind fun _ t _ => ih _ t
        exact ⟨entries, hentries, by simpa using hk⟩

theorem strokes_drainWith (q : Queue) (s : State) :
    EndsAt (.strokes cfg q) (drainWith cfg visit q) s :=
  (ends_get s).bind fun _ t _ => strokes_drainWithin hv _ 0 t

end Strokes

section Passes

variable {stop : Moment → State → Bool}

private theorem follows_walk : Follows cfg cfg.root (cfg.root.children.map .node)
    (visitChildren (visitUntil cfg stop) cfg.root) :=
  follows_visitChildren (fun _ hv => follows_visitUntil stop hv) fun _ h => h

private theorem strokes_drain (q : Queue) (s : State) :
    EndsAt (.strokes cfg q) (drainWith cfg (visitUntil cfg stop) q) s :=
  strokes_drainWith (fun _ _ _ hv => follows_visitUntil stop hv) q s

theorem run_of_passes (h : passes cfg (visitUntil cfg stop) (State.initial next) = .ok () t) :
    Run cfg next t := by
  obtain ⟨_, t₁, hwalk, h⟩ := bind_apply_eq_ok.mp h
  obtain ⟨_, t₂, hfunctions, h⟩ := bind_apply_eq_ok.mp h
  obtain ⟨_, t₃, hclose, hassignments⟩ := bind_apply_eq_ok.mp h
  have h₁ : Run cfg next t₁ := .walk (follows_walk.ok hwalk)
  have h₂ := h₁.strokes ((strokes_drain .functions t₁).ok hfunctions)
  cases hclose
  exact h₂.close.strokes ((strokes_drain .assignments _).ok hassignments)

theorem cut_of_passes {e : Fault}
    (h : passes cfg (visitUntil cfg stop) (State.initial next) = .error e t) :
    ∃ s, Run cfg next s ∧ StrokeCut cfg s t := by
  rcases bind_apply_eq_error.mp h with hwalk | ⟨_, t₁, hwalk, h⟩
  · exact ⟨_, .start, .walk (follows_walk.fail hwalk)⟩
  have h₁ : Run cfg next t₁ := .walk (follows_walk.ok hwalk)
  rcases bind_apply_eq_error.mp h with hfunctions | ⟨_, t₂, hfunctions, h⟩
  · obtain ⟨r, hr, hcut⟩ := (strokes_drain .functions t₁).fail hfunctions
    exact ⟨r, h₁.strokes hr, hcut⟩
  have h₂ := h₁.strokes ((strokes_drain .functions t₁).ok hfunctions)
  rcases bind_apply_eq_error.mp h with hclose | ⟨_, t₃, hclose, hassignments⟩
  · cases hclose
  cases hclose
  obtain ⟨r, hr, hcut⟩ := (strokes_drain .assignments _).fail hassignments
  exact ⟨r, h₂.close.strokes hr, hcut⟩

/-- At every moment a run is between two of its parts or within one. -/
theorem cut_reached (cfg : Setup) (stop : Moment → State → Bool) (next : Nat) :
    ∃ s, Run cfg next s ∧ StrokeCut cfg s (reached cfg stop next) := by
  unfold reached
  cases hp : passes cfg (visitUntil cfg stop) (State.initial next) with
  | ok u t => exact ⟨t, run_of_passes hp, .here⟩
  | error e t => exact cut_of_passes hp

end Passes

end Check

end ScopeLint
