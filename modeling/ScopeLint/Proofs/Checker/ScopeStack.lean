import ScopeLint.Proofs.Checker.Passes

/-! # The stack of open scopes

A visit leaves the stack as it found it, and throughout a run the scope of the module is the one
module scope on the stack, at its bottom. -/
namespace ScopeLint

open List Check

variable {cfg : Setup} {s t : State} {n : Node} {vs : List Value} {q : Queue}

/-- Only nodes are handed on to visits, from the value down. -/
inductive Value.WellBuilt (d : Dialect) : Value → Prop where
  | null : WellBuilt d .null
  | node {n : Node} : (∀ v ∈ n.handed d, WellBuilt d v) → WellBuilt d (.node n)

/-- A visit that fails comes back to its level, unless something other than a node was handed on;
then it ends one level too deep. -/
theorem Cut.depth (h : Cut cfg n vs s t) :
    t.depth = s.depth ∨ (t.depth = s.depth + 1 ∧ ∃ v ∈ vs, ¬ v.WellBuilt cfg.dialect) := by
  induction h with
  | here => exact .inl rfl
  | next hc _ ih =>
    rw [← hc.level.depth_eq]
    exact ih
  | act a _ h => exact .inl ((a.run_mild cfg).fail h).depth_eq
  | scope kind _ _ ih => exact ih
  | guard names _ ih => exact ih
  | entry m _ he => exact .inl (enterNode_eq_error he).depth_eq
  | @node n vs s t u m hmem he _ ih =>
    obtain ⟨r, hr, rfl⟩ := enterNode_eq_ok he
    have hentered : (r.entered m n).depth = s.depth + 1 := by
      rw [← hr.depth_eq]
      rfl
    have hrisen : u.risen.depth = u.depth - 1 := rfl
    rw [hentered] at ih
    rcases ih with hdepth | ⟨hdepth, v, hv, hbuilt⟩
    · exact .inl (by omega)
    · refine .inr ⟨by omega, .node m, hmem, ?_⟩
      intro hm
      cases hm with
      | node hm => exact hbuilt (hm v hv)
  | @stray n vs s t e v hmem hnode hnull hr =>
    obtain ⟨u, hu, ht⟩ := refuse_eq_error hr
    rcases ht with rfl | rfl
    · exact .inl hu.depth_eq
    · refine .inr ⟨congrArg (· + 1) hu.depth_eq, v, hmem, ?_⟩
      intro hbuilt
      cases hbuilt with
      | null => cases hnull
      | node _ => cases hnode

namespace State

/-- The scope of the module is at the bottom of the stack, and it is the only module scope there.
Whatever is further up was opened later. -/
def Based (s : State) (stack : List ScopeId) : Prop :=
  stack.Pairwise (· > ·) ∧
    ∃ inner, stack = inner ++ [0] ∧ ∀ id ∈ inner, id < s.scopes.size ∧ s.kindOf id ≠ some .module

/-- The stack in use and all stacks that are saved with tasks have the module at their bottom, and
guards are lists. -/
structure Orderly (s : State) : Prop where
  kindOf_zero : s.kindOf 0 = some .module
  stack_based : s.Based s.stack
  saved_based : ∀ q i d, s.Entry q i d → s.Based d.stack
  guards_listed : ∀ guard ∈ s.guards, ∃ names, guard = Datum.list names

variable {stack : List ScopeId} {id : ScopeId} {entries : Array Deferred}

theorem Based.mono (h : s.Based stack) (hg : s.Grows t) : t.Based stack := by
  obtain ⟨horder, inner, hstack, hinner⟩ := h
  refine ⟨horder, inner, hstack, fun id hid => ?_⟩
  obtain ⟨hsize, hkind⟩ := hinner id hid
  exact ⟨Nat.lt_of_lt_of_le hsize hg.size_le, by rwa [hg.kindOf_eq id hsize]⟩

theorem Based.lt_size (h : s.Based stack) (hzero : s.kindOf 0 = some .module) (hid : id ∈ stack) :
    id < s.scopes.size := by
  obtain ⟨-, inner, rfl, hinner⟩ := h
  rcases mem_append.mp hid with hid | hid
  · exact (hinner id hid).1
  · obtain rfl := mem_singleton.mp hid
    exact lt_size_of_kindOf hzero

/-- A step that adds no task keeps the order if it leaves a stack with the module at its bottom. -/
theorem Orderly.step (h : s.Orderly) (hg : s.Grows t) (hstack : s.Based t.stack)
    (hentry : ∀ q i d, t.Entry q i d → s.Entry q i d) (hguards : t.guards ⊆ s.guards) :
    t.Orderly where
  kindOf_zero := (hg.kindOf_eq 0 (lt_size_of_kindOf h.kindOf_zero)).trans h.kindOf_zero
  stack_based := hstack.mono hg
  saved_based := fun q i d hd => (h.saved_based q i d (hentry q i d hd)).mono hg
  guards_listed := fun guard hguard => h.guards_listed guard (hguards hguard)

theorem Orderly.alike (h : s.Orderly) (ha : s.Alike t) : t.Orderly := by
  refine h.step ha.grows (ha.stack_eq ▸ h.stack_based) (fun q i d hd => ?_)
    (ha.guards_eq ▸ List.Subset.refl _)
  rwa [Entry, ← ha.queue_eq q]

theorem Orderly.of_eq (h : s.Orderly) (hscopes : t.scopes = s.scopes) (hstack : t.stack = s.stack)
    (hguards : t.guards ⊆ s.guards) (hqueue : ∀ q, t.queue q = s.queue q)
    (hfutures : t.futuresAllowed = true → s.futuresAllowed = true) : t.Orderly := by
  have hkind (id : ScopeId) : t.kindOf id = s.kindOf id := by simp [kindOf, scope?, hscopes]
  have hg : s.Grows t := .of_eq (by rw [hscopes]) hkind hqueue hfutures
  refine h.step hg (hstack ▸ h.stack_based) ?_ hguards
  intro q i d hd
  rwa [Entry, ← hqueue q]

theorem Orderly.entered (h : s.Orderly) (m n : Node) : (s.entered m n).Orderly :=
  h.of_eq rfl rfl (List.Subset.refl _)
    (fun q => by cases q <;> rfl) id

theorem Orderly.risen (h : s.Orderly) : s.risen.Orderly :=
  h.of_eq rfl rfl (List.Subset.refl _)
    (fun q => by cases q <;> rfl) id

theorem Orderly.guarded (h : s.Orderly) (names : List Datum) : (s.guarded names).Orderly where
  kindOf_zero := h.kindOf_zero
  stack_based := h.stack_based
  saved_based := fun q i d hd => h.saved_based q i d (by cases q <;> exact hd)
  guards_listed := forall_mem_cons.mpr ⟨⟨names, rfl⟩, h.guards_listed⟩

theorem Orderly.unguarded (h : s.Orderly) : s.unguarded.Orderly :=
  h.of_eq rfl rfl (fun _ => mem_of_mem_tail)
    (fun q => by cases q <;> rfl) id

theorem Orderly.forExample (h : s.Orderly) (tree : Node) (shift : Shift) :
    (s.forExample tree shift).Orderly :=
  h.of_eq rfl rfl (List.Subset.refl _)
    (fun q => by cases q <;> rfl) id

theorem Orderly.resumed (h : s.Orderly) {i : Nat} {d : Deferred} (he : s.Entry q i d) :
    (s.resumed q i d).Orderly :=
  h.step (s.grows_resumed q i d) (h.saved_based q i d he) (fun q i d hd => by cases q <;> exact hd)
    (List.Subset.refl _)

theorem kindOf_opened_size (s : State) (kind : ScopeKind) :
    (s.opened kind).kindOf s.scopes.size = some kind := by
  simp [kindOf, scope?, opened, Scope.empty]

theorem Orderly.opened (h : s.Orderly) {kind : ScopeKind} (hkind : kind ≠ .module) :
    (s.opened kind).Orderly := by
  have hg := grows_opened s kind
  obtain ⟨horder, inner, hstack, hinner⟩ := h.stack_based.mono hg
  refine ⟨?_, ⟨?_, s.scopes.size :: inner, ?_, ?_⟩,
    fun q i d hd => (h.saved_based q i d hd).mono hg, h.guards_listed⟩
  · exact (hg.kindOf_eq 0 (lt_size_of_kindOf h.kindOf_zero)).trans h.kindOf_zero
  · exact pairwise_cons.mpr ⟨fun id hid => h.stack_based.lt_size h.kindOf_zero hid, horder⟩
  · simp [State.opened, hstack]
  · intro id hid
    rcases mem_cons.mp hid with rfl | hid
    · refine ⟨by simp [State.opened], ?_⟩
      rw [kindOf_opened_size]
      simpa using hkind
    · exact hinner id hid

theorem Orderly.withTask (h : s.Orderly) (hq : s.queue q = some entries) (task : Task) :
    (s.withTask q entries task).Orderly := by
  have hg := grows_withTask hq task
  refine ⟨?_, ?_, fun other i d hd => ?_, by cases q <;> exact h.guards_listed⟩
  · exact (hg.kindOf_eq 0 (lt_size_of_kindOf h.kindOf_zero)).trans h.kindOf_zero
  · have hstack : (s.withTask q entries task).stack = s.stack := by cases q <;> rfl
    exact hstack ▸ h.stack_based.mono hg
  · rcases (entry_withTask hq).mp hd with hd | ⟨-, -, rfl⟩
    · exact (h.saved_based other i d hd).mono hg
    · exact h.stack_based.mono hg

theorem Orderly.finished (h : s.Orderly) (hentries : s.assignments = some entries) (n : Node)
    (top : ScopeId) (verdicts : List Task) : (s.finished n top entries verdicts).Orderly := by
  have hg := grows_finished n top hentries verdicts
  refine ⟨h.kindOf_zero, h.stack_based, fun other i d hd => ?_, h.guards_listed⟩
  rcases (entry_finished hentries).mp hd with hd | ⟨-, -, task, -, rfl⟩
  · exact (h.saved_based other i d hd).mono hg
  · exact h.stack_based.mono hg

theorem Orderly.closed (h : t.Orderly) {rest : List ScopeId} (hs : s.Orderly) (hg : s.Grows t)
    (hrest : rest = s.stack) : (t.closed id rest).Orderly := by
  subst hrest
  have hclosed : t.Grows (t.closed id s.stack) := grows_closed t id s.stack
  refine ⟨h.kindOf_zero, hs.stack_based.mono (hg.trans hclosed), fun q i d hd => ?_,
    h.guards_listed⟩
  exact (h.saved_based q i d (by cases q <;> exact hd)).mono hclosed

end State

theorem Course.orderly (h : Course cfg n vs s t) : s.Orderly → t.Orderly := by
  refine h.induces (R := fun s t => s.Orderly → t.Orderly) (fun _ hs => hs) (fun h k hs => k (h hs))
    (fun h hs => hs.alike h) (fun hkind hc h hs => ?_) (fun h hs => (h (hs.guarded _)).unguarded)
    (fun _ hq hs => hs.withTask hq _) (fun m n h hs => (h (hs.entered m n)).risen)
  exact (h (hs.opened hkind.1)).closed hs ((State.grows_opened _ _).trans hc.grows) rfl

theorem Cut.orderly (h : Cut cfg n vs s t) (hs : s.Orderly) : t.Orderly := by
  induction h with
  | here => exact hs
  | next hc _ ih => exact ih (hc.orderly hs)
  | act a _ h => exact hs.alike ((a.run_mild cfg).fail h)
  | scope kind hkind _ ih => exact ih (hs.opened hkind.1)
  | guard names _ ih => exact ih (hs.guarded names)
  | entry m _ he => exact hs.alike (enterNode_eq_error he).toAlike
  | node m _ he _ ih =>
    obtain ⟨r, hr, rfl⟩ := enterNode_eq_ok he
    exact (ih ((hs.alike hr.toAlike).entered m _)).risen
  | stray v _ _ _ hr =>
    obtain ⟨u, hu, rfl | rfl⟩ := refuse_eq_error hr
    · exact hs.alike hu.toAlike
    · exact (hs.alike hu.toAlike).of_eq rfl rfl (List.Subset.refl _)
        (fun q => by cases q <;> rfl) id

section Runs

theorem Examples.orderly (h : Examples cfg s t) : s.Orderly → t.Orderly :=
  h.induces (R := fun s t => s.Orderly → t.Orderly) (fun _ hs => hs) (fun h k hs => k (h hs))
    (fun h hs => hs.alike h.alike) (fun _ tree shift hs => hs.forExample tree shift) Course.orderly
    fun _ _ hs => hs.of_eq rfl rfl (List.Subset.refl _) (fun q => by cases q <;> rfl) id

theorem ExamplesCut.orderly (h : ExamplesCut cfg s t) (hs : s.Orderly) : t.Orderly := by
  induction h with
  | here => exact hs
  | next h _ ih => exact ih (h.orderly hs)
  | speech h => exact hs.alike h.alike
  | tree tree shift h => exact h.orderly (hs.forExample tree shift)

/-- The body of a function starts with its parameters in a scope of their own. -/
theorem State.Orderly.parameters (hs : s.Orderly) {i : Nat} {d : Deferred} (he : s.Entry q i d)
    {r : State} (h : ((s.resumed q i d).opened .function).Alike r) : r.Orderly :=
  ((hs.resumed he).opened (by decide)).alike h

theorem Stroke.orderly (h : Stroke cfg q s t) (hs : s.Orderly) : t.Orderly := by
  cases h with
  | @body r u v _ i d n names he _ hparameters hcourse hfinish hpop =>
    have hresumed := hs.resumed he
    have halike := (mild_bindParameters cfg n names).ok hparameters
    obtain ⟨top, _, entries, -, hentries, rfl⟩ := finishBody_eq_ok hfinish
    obtain ⟨id, rest, hstack, rfl⟩ := popScope_eq_ok hpop
    have htop : u.stack = _ := hcourse.level.stack_eq.trans halike.stack_eq
    rw [show u.stack = id :: rest from hstack] at htop
    obtain ⟨-, hrest⟩ := cons.inj htop
    have hu := (hcourse.orderly (hs.parameters he halike)).finished hentries n top (cfg.verdicts n)
    have hg := ((State.grows_opened (s.resumed q i d) .function).trans halike.grows).trans
      (hcourse.grows.trans (State.grows_finished n top hentries (cfg.verdicts n)))
    exact hu.closed hresumed hg hrest
  | @doctests u _ i d he h hp =>
    have hresumed := hs.resumed he
    obtain ⟨id, rest, hstack, rfl⟩ := popScope_eq_ok hp
    have htop := h.stack_eq
    rw [hstack] at htop
    obtain ⟨-, hrest⟩ := cons.inj htop
    have hg := (State.grows_opened (s.resumed q i d) .function).trans h.grows
    exact (h.orderly (hresumed.opened (by decide))).closed hresumed hg hrest
  | idle he => exact hs.resumed he
  | verdict he _ h => exact (hs.resumed he).alike h.alike

theorem StrokeCut.orderly (h : StrokeCut cfg s t) (hs : s.Orderly) : t.Orderly := by
  cases h with
  | here => exact hs
  | walk h => exact h.orderly hs
  | parameters he _ h => exact hs.parameters he ((mild_bindParameters _ _ _).fail h)
  | body he _ hparameters h =>
    exact h.orderly (hs.parameters he ((mild_bindParameters _ _ _).ok hparameters))
  | doctests he h => exact h.orderly ((hs.resumed he).opened (by decide))
  | verdict he h => exact (hs.resumed he).alike h.alike

theorem State.orderly_initial (next : Nat) : (State.initial next).Orderly where
  kindOf_zero := rfl
  stack_based := ⟨pairwise_singleton _ _, [], rfl, by simp⟩
  saved_based := by
    rintro q i d ⟨entries, hq, hd⟩
    cases q <;> cases hq <;> simp at hd
  guards_listed := by simp [State.initial]

theorem Run.orderly {next : Nat} (h : Run cfg next s) : s.Orderly := by
  induction h with
  | start => exact State.orderly_initial next
  | walk h => exact h.orderly (State.orderly_initial next)
  | stroke _ h ih => exact h.orderly ih
  | close _ ih =>
    refine ⟨ih.kindOf_zero, ih.stack_based, fun q i d hd => ?_, ih.guards_listed⟩
    cases q with
    | functions =>
      obtain ⟨entries, hnone, -⟩ := hd
      cases hnone
    | assignments => exact ih.saved_based .assignments i d hd

/-- At every moment of a run the stack is in order. -/
theorem Check.orderly_reached (cfg : Setup) (stop : Moment → State → Bool) (next : Nat) :
    (reached cfg stop next).Orderly := by
  obtain ⟨s, hrun, hcut⟩ := cut_reached cfg stop next
  exact hcut.orderly hrun.orderly

end Runs

namespace State

variable {top : ScopeId} {outer : List ScopeId}

theorem visibleScopes_of_ne_generator (hstack : s.stack = top :: outer)
    (hkind : s.kindOf top ≠ some .generator) :
    s.visibleScopes = .ok (top :: outer.filter s.isLending) := by
  simp [visibleScopes, hstack, hkind]

/-- Out of a comprehension the scope around it is seen, even if it does not lend its names. -/
theorem visibleScopes_of_generator {below : ScopeId} (hstack : s.stack = top :: below :: outer)
    (hkind : s.kindOf top = some .generator)
    (hlending : ∃ id ∈ below :: outer, s.isLending id = true) :
    ∃ nearest ∈ below :: outer, s.isLending nearest = true ∧
      s.visibleScopes = .ok (top ::
        if nearest = below ∨ (s.isEmptyScope nearest ∧ s.isEmptyScope below) then
          (below :: outer).filter s.isLending
        else below :: (below :: outer).filter s.isLending) := by
  obtain ⟨id, hid, hid_lending⟩ := hlending
  have hmem : id ∈ (below :: outer).filter s.isLending := mem_filter.mpr ⟨hid, hid_lending⟩
  cases hfilter : (below :: outer).filter s.isLending with
  | nil =>
    rw [hfilter] at hmem
    cases hmem
  | cons nearest rest =>
    have hnearest : nearest ∈ (below :: outer).filter s.isLending := by simp [hfilter]
    obtain ⟨hnearest, hnearest_lending⟩ := mem_filter.mp hnearest
    refine ⟨nearest, hnearest, hnearest_lending, ?_⟩
    simp only [visibleScopes, hstack, hkind, if_true, hfilter]
    split <;> rfl

theorem Orderly.exists_stack (h : s.Orderly) : ∃ top outer, s.stack = top :: outer := by
  obtain ⟨-, inner, hbased, -⟩ := h.stack_based
  rw [hbased]
  cases inner <;> exact ⟨_, _, rfl⟩

theorem Orderly.exists_lending (h : s.Orderly) (hstack : s.stack = top :: outer)
    (hkind : s.kindOf top = some .generator) :
    ∃ below rest, outer = below :: rest ∧ ∃ id ∈ below :: rest, s.isLending id = true := by
  have hmodule : s.isLending 0 = true := by simp [isLending, h.kindOf_zero]
  obtain ⟨-, inner, hbased, -⟩ := h.stack_based
  rw [hstack] at hbased
  cases inner with
  | nil =>
    obtain ⟨rfl, -⟩ := cons.inj hbased
    rw [h.kindOf_zero] at hkind
    cases hkind
  | cons first inner =>
    obtain ⟨-, rfl⟩ := cons.inj hbased
    obtain ⟨below, rest, hbelow⟩ : ∃ below rest, inner ++ [0] = below :: rest := by
      cases inner <;> exact ⟨_, _, rfl⟩
    exact ⟨below, rest, hbelow, 0, by simp [← hbelow], hmodule⟩

/-- A lookup always knows where to look. -/
theorem Orderly.visibleScopes_ok (h : s.Orderly) : ∃ visible, s.visibleScopes = .ok visible := by
  obtain ⟨top, outer, hstack⟩ := h.exists_stack
  by_cases hkind : s.kindOf top = some .generator
  · obtain ⟨below, rest, rfl, hlending⟩ := h.exists_lending hstack hkind
    obtain ⟨_, _, _, heq⟩ := visibleScopes_of_generator hstack hkind hlending
    exact ⟨_, heq⟩
  · exact ⟨_, visibleScopes_of_ne_generator hstack hkind⟩

end State

namespace Check

/-- A visit that comes back has closed what it opened and leaves all scopes what they were. One
that fails is back at its level, unless something that is no node was handed to a visit. So at every
moment of a run the one module scope is at the bottom of the stack and names can be looked up. -/
theorem visit_keeps_stack_and_run_is_based (cfg : Setup) :
    (∀ v parent s, match visit cfg v parent s with
      | .ok _ t => t.stack = s.stack ∧ t.guards = s.guards ∧ t.depth = s.depth ∧
          t.shift = s.shift ∧ ∀ id < s.scopes.size, t.kindOf id = s.kindOf id
      | .error _ t => t.depth = s.depth ∨
          (t.depth = s.depth + 1 ∧ ¬ v.WellBuilt cfg.dialect)) ∧
    ∀ stop next, ∃ inner, (reached cfg stop next).stack = inner ++ [0] ∧
      (reached cfg stop next).kindOf 0 = some .module ∧
      (∀ id ∈ inner, (reached cfg stop next).kindOf id ≠ some .module) ∧
      ∃ visible, (reached cfg stop next).visibleScopes = .ok visible := by
  constructor
  · intro v parent s
    have hv : Follows cfg parent [v] (visit cfg v parent) := follows_visit (by simp)
    cases h : visit cfg v parent s with
    | ok u t =>
      have hcourse : Course cfg parent [v] s t := hv.ok h
      obtain ⟨hstack, hguards, hdepth, hshift⟩ := hcourse.level
      exact ⟨hstack, hguards, hdepth, hshift, hcourse.grows.kindOf_eq⟩
    | error e t =>
      have hcut : Cut cfg parent [v] s t := hv.fail h
      rcases hcut.depth with hdepth | ⟨hdepth, w, hw, hbuilt⟩
      · exact .inl hdepth
      · obtain rfl := List.mem_singleton.mp hw
        exact .inr ⟨hdepth, hbuilt⟩
  · intro stop next
    have horderly := orderly_reached cfg stop next
    obtain ⟨-, inner, hstack, hinner⟩ := horderly.stack_based
    exact ⟨inner, hstack, horderly.kindOf_zero, fun id hid => (hinner id hid).2,
      horderly.visibleScopes_ok⟩

end Check

namespace Sample

def name (line : Int) (id context : String) : Value :=
  .node ⟨0, "Name", some (.of line 0),
    [("id", .text id), ("ctx", .node ⟨0, context, none, []⟩)]⟩

def tuple (line : Int) (items : List Value) : Value :=
  .node ⟨0, "Tuple", some (.of line 0),
    [("elts", .list items), ("ctx", .node ⟨0, "Store", none, []⟩)]⟩

def noParameters : Value :=
  .node ⟨0, "arguments", none, [("args", .list []), ("vararg", .null), ("kwonlyargs", .list []),
    ("kw_defaults", .list []), ("kwarg", .null), ("defaults", .list [])]⟩

def function (line : Int) (name : String) (body : List Value) : Value :=
  .node ⟨0, "FunctionDef", some (.of line 0), [("name", .text name), ("args", noParameters),
    ("body", .list body), ("decorator_list", .list []), ("returns", .null)]⟩

def classDefinition (line : Int) (name : String) (body : List Value) : Value :=
  .node ⟨0, "ClassDef", some (.of line 0), [("name", .text name), ("bases", .list []),
    ("keywords", .list []), ("body", .list body), ("decorator_list", .list [])]⟩

def docstring (line column : Int) (text : String) : Value :=
  .node ⟨0, "Expr", some (.of line column),
    [("value", .node ⟨0, "Str", some (.of line column), [("s", .text text)]⟩)]⟩

/-- The comprehension of `element` for every `target` in a range. -/
def comprehension (line : Int) (target : String) (element : Value) : Value :=
  .node ⟨0, "GeneratorExp", some (.of line 0), [("elt", element), ("generators", .list [
    .node ⟨0, "comprehension", none, [("target", name line target "Store"),
      ("iter", name line "range" "Load"), ("ifs", .list [])]⟩])]⟩

/-- A check of a module in which nothing is left out. -/
def setup (body : List Value) : Setup where
  root := (NodeOf.numbered 0 ⟨0, "Module", none, [("body", .list body)]⟩).1
  filename := noFile
  dialect := .threeFour
  ignored := .list []
  ignoredLines := .list []
  verbose := .null
  doctests := false
  traced := false
  builtins := []
  compile := .ofTable []
  remarks := []

def setupTwoSeven (body : List Value) : Setup := { setup body with dialect := .twoSeven }

/-- Stops when the node with this number has got its place. -/
def atNode (id : Nat) (m : Check.Moment) (_ : State) : Bool :=
  match m with
  | .within n => n.id == id
  | _ => false

/-- The state at the end of the passes. -/
def final (cfg : Setup) : State := reached cfg (fun _ _ => false) cfg.root.size

def finishes (act : Check Unit) (s : State) : Bool :=
  match act s with
  | .ok _ _ => true
  | .error _ _ => false

theorem exists_of_finishes {act : Check Unit} (h : finishes act s = true) :
    ∃ t, act s = .ok () t := by
  unfold finishes at h
  split at h
  · exact ⟨_, ‹_›⟩
  · cases h

/-- Whether the run gets through to a state of which the test holds. -/
def endsWith (cfg : Setup) (test : State → Bool) : Bool :=
  match run cfg (State.initial cfg.root.size) with
  | .ok _ t => test t
  | .error _ _ => false

theorem endsWith_eq_true {test : State → Bool} (h : endsWith cfg test = true) :
    ∃ t, run cfg (State.initial cfg.root.size) = .ok () t ∧ test t = true := by
  unfold endsWith at h
  cases hrun : run cfg (State.initial cfg.root.size) with
  | ok u t =>
    rw [hrun] at h
    exact ⟨t, rfl, h⟩
  | error e t =>
    rw [hrun] at h
    cases h

/-- A function around a comprehension whose element is the node 4. -/
def nested : Setup :=
  setup [function 1 "f" [comprehension 2 "x" (name 2 "x" "Load")]]

end Sample

namespace Check

open Sample

/-- A comprehension that is visited in the module, and one in the body of a function. -/
theorem visit_keeps_stack_and_run_is_based_nested :
    (∃ t, visit nested (comprehension 1 "x" (name 1 "x" "Load")) nested.root
        (State.initial nested.root.size) = .ok () t ∧ t.stack = [0] ∧
      0 < (State.initial nested.root.size).scopes.size ∧ t.kindOf 0 = some .module) ∧
    ∃ inner, (reached nested (atNode 4) nested.root.size).stack = inner ++ [0] ∧
      2 ∈ inner ∧ (reached nested (atNode 4) nested.root.size).kindOf 2 ≠ some .module := by
  obtain ⟨hvisit, hrun⟩ := visit_keeps_stack_and_run_is_based nested
  constructor
  · have hsize : 0 < (State.initial nested.root.size).scopes.size := Nat.zero_lt_one
    have hkeeps : ∀ v parent s t, visit nested v parent s = .ok () t →
        t.stack = s.stack ∧ ∀ id < s.scopes.size, t.kindOf id = s.kindOf id := by
      intro v parent s t ht
      have hstep := hvisit v parent s
      rw [ht] at hstep
      exact ⟨hstep.1, hstep.2.2.2.2⟩
    have hok : (match visit nested (comprehension 1 "x" (name 1 "x" "Load"))
        nested.root (State.initial nested.root.size) with
      | .ok _ _ => true
      | .error _ _ => false) = true := by decide +kernel
    cases ht : visit nested (comprehension 1 "x" (name 1 "x" "Load")) nested.root
        (State.initial nested.root.size) with
    | ok u t =>
      obtain ⟨hstack, hkind⟩ := hkeeps _ _ _ t ht
      exact ⟨t, rfl, hstack, hsize, hkind 0 hsize⟩
    | error e t =>
      rw [ht] at hok
      cases hok
  · obtain ⟨inner, hstack, -, hinner, -⟩ := hrun (atNode 4) nested.root.size
    have htwo : 2 ∈ inner := by
      have hmem : 2 ∈ (reached nested (atNode 4) nested.root.size).stack := by decide +kernel
      simpa [hstack] using hmem
    exact ⟨inner, hstack, htwo, hinner 2 htwo⟩

end Check

end ScopeLint
