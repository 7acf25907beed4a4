import ScopeLint.Proofs.Checker.NameReports
import ScopeLint.Proofs.Checker.Steps

/-! # Scenes

Of what a list of steps finds out about names, nothing depends on the state but the views of the
scopes that were open before. A scene is what is seen of the scopes that the steps have opened: it is
known before the steps are taken, and so are the names that they miss and the work that they put off. -/
namespace ScopeLint

open List Check

/-- What is seen of the scopes that have been opened since some moment: all of them by number, those
that are open, innermost first, and the handlers around. -/
structure Scene where
  made : List View
  stack : List Nat
  guards : List Datum

namespace Scene

/-- The scene where one scope has been opened. -/
def first (kind : ScopeKind) : Scene := ⟨[(Scope.empty kind).view], [0], [.list []]⟩

def view (sc : Scene) (d : Nat) : View := sc.made.getD d (Scope.empty .classBody).view

/-- What is seen of some of the scopes, with others around them. -/
def viewsOf (sc : Scene) (base : List View) (ds : List Nat) : List View := ds.map sc.view ++ base

def views (sc : Scene) (base : List View) : List View := sc.viewsOf base sc.stack

def isGuarded (sc : Scene) : Bool :=
  match (sc.guards.headD (.list [])).lists (.text "NameError") with
  | .ok guarded => guarded
  | .error _ => false

def alter (sc : Scene) (f : View → View) : Scene :=
  match sc.stack with
  | d :: _ => { sc with made := sc.made.modify d f }
  | [] => sc

def opened (sc : Scene) (kind : ScopeKind) : Scene :=
  { sc with made := sc.made ++ [(Scope.empty kind).view], stack := sc.made.length :: sc.stack }

@[simp] theorem stack_alter (sc : Scene) (f : View → View) : (sc.alter f).stack = sc.stack := by
  unfold alter
  split <;> rfl

@[simp] theorem length_made_alter (sc : Scene) (f : View → View) :
    (sc.alter f).made.length = sc.made.length := by
  unfold alter
  split <;> simp

theorem view_alter {sc : Scene} {d : Nat} {rest : List Nat} (hstack : sc.stack = d :: rest)
    (hd : d < sc.made.length) (f : View → View) (other : Nat) :
    (sc.alter f).view other = if d = other then f (sc.view other) else sc.view other := by
  simp only [alter, hstack, view, getD_eq_getElem?_getD, getElem?_modify]
  split
  · rename_i heq
    subst heq
    rw [getElem?_eq_getElem hd]
    rfl
  · simp

theorem view_opened (sc : Scene) (kind : ScopeKind) (d : Nat) : (sc.opened kind).view d =
    if d = sc.made.length then (Scope.empty kind).view else sc.view d := by
  simp only [opened, view, getD_eq_getElem?_getD]
  rcases Nat.lt_trichotomy d sc.made.length with hlt | rfl | hgt
  · rw [getElem?_append_left hlt, if_neg (Nat.ne_of_lt hlt)]
  · rw [if_pos rfl, getElem?_concat_length, Option.getD_some]
  · rw [if_neg (Nat.ne_of_gt hgt), getElem?_eq_none, getElem?_eq_none]
    · exact Nat.le_of_lt hgt
    · rw [length_append]
      exact hgt

end Scene

namespace Step

def scene (sc : Scene) : Step → Scene
  | .take _ (.act a) => sc.alter a.alter
  | .take n (.future b) => sc.alter (Act.alter (.bind n b true))
  | .take _ (.opens kind) => sc.opened kind
  | .take _ .closes => { sc with stack := sc.stack.tail }
  | .take _ (.guards names) => { sc with guards := .list names :: sc.guards }
  | .take _ .unguards => { sc with guards := sc.guards.tail }
  | _ => sc

def sceneAfter (sc : Scene) (steps : List Step) : Scene := steps.foldl scene sc

/-- The name that a step misses, with the value that it is looked up for. -/
def missed? (cfg : Setup) (base : List View) (sc : Scene) : Step → Option (Value × Datum)
  | .take _ (.act (.load v)) =>
    (v.nameOf?.filter (cfg.misses (sc.views base) sc.isGuarded)).map (v, ·)
  | .take _ (.act (.delete n)) =>
    ((Value.node n).nameOf?.filter (View.lacks (sc.views base))).map (.node n, ·)
  | _ => none

def task? : Step → Option Task
  | .take _ (.defers task) => some task
  | _ => none

/-- The tasks that some steps put off, each with the scopes that are open then. -/
def put : Scene → List Step → List (Task × List Nat)
  | _, [] => []
  | sc, step :: rest => (step.task?.map (·, sc.stack)).toList ++ put (step.scene sc) rest

end Step

/-- Where some steps start: how many scopes there are, what is seen of them, and which of them are
open. -/
structure Base where
  size : Nat
  view : ScopeId → View
  stack : List ScopeId

namespace Base

def views (o : Base) : List View := o.stack.map o.view

/-- The scopes with such numbers, where the numbers count from the start, inside those that were open
at the start. -/
def ids (o : Base) (ds : List Nat) : List ScopeId := ds.map (o.size + ·) ++ o.stack

/-- A task with the numbers of the open scopes, as it is put off. -/
def deferred (o : Base) (shift : Option Shift) (put : Task × List Nat) : Deferred :=
  ⟨put.1, o.ids put.2, shift⟩

end Base

/-- The state shows the scene, seen from the start. -/
structure State.Shows (s : State) (o : Base) (sc : Scene) : Prop where
  stack_eq : s.stack = o.ids sc.stack
  size_eq : s.scopes.size = o.size + sc.made.length
  guards_eq : s.guards = sc.guards
  view_eq : ∀ d, d < sc.made.length → s.viewOf (o.size + d) = sc.view d
  older_eq : ∀ id : Nat, id < o.size → s.viewOf id = o.view id
  bound : ∀ d ∈ sc.stack, d < sc.made.length
  older : ∀ id : Nat, id ∈ o.stack → id < o.size

namespace State

variable {cfg : Setup} {s t : State} {o : Base} {sc : Scene}

namespace Shows

variable (h : s.Shows o sc)

include h

theorem viewsOf_eq {ds : List Nat} (hds : ∀ d ∈ ds, d < sc.made.length) :
    (o.ids ds).map s.viewOf = sc.viewsOf o.views ds := by
  rw [Base.ids, Scene.viewsOf, Base.views, map_append, map_map]
  congr 1
  · exact map_congr_left fun d hd => h.view_eq d (hds d hd)
  · exact map_congr_left fun id hid => h.older_eq id (h.older id hid)

theorem views_eq : s.views = sc.views o.views := by
  rw [State.views, h.stack_eq]
  exact h.viewsOf_eq h.bound

theorem isGuarded_eq : s.isGuarded = sc.isGuarded := by
  rw [State.isGuarded, h.guards_eq]
  rfl

theorem of_eq (hscopes : t.scopes = s.scopes) (hstack : t.stack = s.stack)
    (hguards : t.guards = s.guards) : t.Shows o sc where
  stack_eq := hstack.trans h.stack_eq
  size_eq := by rw [hscopes, h.size_eq]
  guards_eq := hguards.trans h.guards_eq
  view_eq := by
    rw [viewOf_of_scopes hscopes]
    exact h.view_eq
  older_eq := by
    rw [viewOf_of_scopes hscopes]
    exact h.older_eq
  bound := h.bound
  older := h.older

/-- What changes the scope on top, if that is one of those that were opened since. -/
theorem alter (hopen : sc.stack ≠ []) (ha : s.Alike t)
    {reports : List (Kind × List Datum)} {f : View → View} (hturns : s.Turns t reports f) :
    t.Shows o (sc.alter f) := by
  obtain ⟨d, rest, hsc⟩ := exists_cons_of_ne_nil hopen
  have hd : d < sc.made.length := h.bound d (by simp [hsc])
  have hhead : s.stack.head? = some (o.size + d) := by rw [h.stack_eq, hsc]; rfl
  have hstack : (sc.alter f).stack = sc.stack := by simp [Scene.alter, hsc]
  have hlength : (sc.alter f).made.length = sc.made.length := by simp [Scene.alter, hsc]
  have hguards : (sc.alter f).guards = sc.guards := by simp [Scene.alter, hsc]
  refine ⟨by rw [hstack, ha.stack_eq, h.stack_eq], by rw [hlength, ha.size_eq, h.size_eq],
    by rw [hguards, ha.guards_eq, h.guards_eq], fun other hother => ?_, ?_, ?_, h.older⟩
  · rw [hlength] at hother
    rw [hturns.viewOf_eq, hhead, Scene.view_alter hsc hd, h.view_eq other hother]
    simp
  · intro id hid
    have hne : o.size + d ≠ id := by omega
    rw [hturns.viewOf_eq, hhead, ← h.older_eq id hid]
    simp [hne]
  · rw [hstack, hlength]
    exact h.bound

theorem opened (kind : ScopeKind) : (s.opened kind).Shows o (sc.opened kind) := by
  have hlength : (sc.opened kind).made.length = sc.made.length + 1 := by simp [Scene.opened]
  have hview (id : ScopeId) : (s.opened kind).viewOf id =
      if id = s.scopes.size then (Scope.empty kind).view else s.viewOf id := by
    simp only [State.viewOf, State.scope?, State.opened, Array.getElem?_push]
    split <;> rfl
  refine ⟨?_, ?_, h.guards_eq, fun d hd => ?_, ?_, fun d hd => ?_, h.older⟩
  · change s.scopes.size :: s.stack = _
    rw [h.stack_eq, h.size_eq]
    rfl
  · rw [hlength, State.opened, Array.size_push, h.size_eq]
    rfl
  · rw [hlength] at hd
    rw [hview, h.size_eq, Scene.view_opened]
    by_cases heq : d = sc.made.length
    · rw [if_pos (by rw [heq]), if_pos heq]
    · have hne : o.size + d ≠ o.size + sc.made.length := by omega
      rw [if_neg hne, if_neg heq]
      exact h.view_eq d (by omega)
  · intro id hid
    have hlt : id < s.scopes.size := by
      rw [h.size_eq]
      exact Nat.lt_add_right _ hid
    rw [hview, if_neg (Nat.ne_of_lt hlt), h.older_eq id hid]
  · rw [hlength]
    rcases mem_cons.mp hd with rfl | hd
    · exact Nat.lt_succ_self _
    · exact Nat.lt_succ_of_lt (h.bound d hd)

theorem closed (hopen : sc.stack ≠ []) {id : ScopeId} {rest : List ScopeId}
    (hstack : s.stack = id :: rest) :
    (s.closed id rest).Shows o { sc with stack := sc.stack.tail } := by
  obtain ⟨d, ds, hsc⟩ := exists_cons_of_ne_nil hopen
  have htail : rest = o.ids ds := by
    have heq := h.stack_eq
    rw [hstack, hsc] at heq
    exact (cons.inj heq).2
  refine ⟨?_, h.size_eq, h.guards_eq, h.view_eq, h.older_eq, fun e he => ?_, h.older⟩
  · rw [hsc]
    exact htail
  · exact h.bound e (mem_of_mem_tail he)

end Shows

end State

/-- The reports on unknown names that come of what has been missed. -/
def State.reportsOn (s : State) (missed : List (Value × Datum)) : List (Kind × List Datum) :=
  missed.map fun (v, name) => (.undefinedName, [s.datumOf v, name])

namespace Step

variable {cfg : Setup} {among : Node → Prop} {s t : State} {o : Base} {sc : Scene} {step : Step}
  {k k' : Nat}

/-- The report that a step gives on a name that was used before it is bound. -/
def early? (s : State) : Step → Option (Kind × List Datum)
  | .take _ (.act (.store n)) => (s.usedBefore? n).map fun (name, use, b) =>
      (.undefinedLocal, [s.datumOf use.node, name, s.datumOf b.source])
  | _ => none

theorem mem_of_missed? {values : Value → Prop} (hstep : step.IsFrom cfg among)
    (hcovers : Covers among values) {base : List View} {v : Value} {name : Datum}
    (h : step.missed? cfg base sc = some (v, name)) : values v := by
  match step with
  | .take n (.act (.load w)) =>
    obtain ⟨_, -, heq⟩ := Option.map_eq_some_iff.mp h
    cases heq
    rcases hstep.2.1 with rfl | htarget
    · exact hcovers.node n hstep.1
    · exact hcovers.target n _ hstep.1 htarget
  | .take n (.act (.delete m)) =>
    obtain ⟨_, -, heq⟩ := Option.map_eq_some_iff.mp h
    cases heq
    obtain rfl : m = n := hstep.2.1
    exact hcovers.node m hstep.1

/-- The report on a name that was used too early is about a use in the scope on top. -/
theorem exists_of_early? {report : Kind × List Datum} (h : step.early? s = some report) :
    ∃ n name use b, s.usedBefore? n = some (name, use, b) ∧
      report = (.undefinedLocal, [s.datumOf use.node, name, s.datumOf b.source]) := by
  match step with
  | .take _ (.act (.store n)) =>
    obtain ⟨⟨name, use, b⟩, hbefore, rfl⟩ := Option.map_eq_some_iff.mp h
    exact ⟨n, name, use, b, hbefore, rfl⟩

theorem Leads.shows (h : step.Leads cfg s t) (hstep : step.IsFrom cfg among)
    (hs : s.Shows o sc) (hopen : sc.stack ≠ []) : t.Shows o (step.scene sc) := by
  cases h with
  | enter | leave | defers => exact hs.of_eq rfl rfl rfl
  | @act n a _ ha => exact hs.alter hopen ((a.run_mild cfg).ok ha) (turns_act hstep.2.1 ha)
  | late _ hspeech => exact hs.of_eq hspeech.scopes_eq hspeech.alike.stack_eq hspeech.alike.guards_eq
  | future _ _ hbind =>
    have hturns := turns_bind hbind
    exact hs.alter hopen ((mild_bind _ _ _ _).ok hbind) ⟨hturns.nameReports_eq, hturns.viewOf_eq⟩
  | opens _ kind => exact hs.opened kind
  | closes _ hstack => exact hs.closed hopen hstack
  | guards _ names =>
    refine ⟨hs.stack_eq, hs.size_eq, ?_, hs.view_eq, hs.older_eq, hs.bound, hs.older⟩
    exact congrArg (Datum.list names :: ·) hs.guards_eq
  | unguards =>
    refine ⟨hs.stack_eq, hs.size_eq, ?_, hs.view_eq, hs.older_eq, hs.bound, hs.older⟩
    exact congrArg tail hs.guards_eq

theorem Leads.nameReports_eq (h : step.Leads cfg s t) (hstep : step.IsFrom cfg among)
    (hs : s.Shows o sc) : t.nameReports = s.nameReports ++
      (s.reportsOn (step.missed? cfg o.views sc).toList ++ (step.early? s).toList) := by
  cases h with
  | enter | leave | defers | opens | closes | guards | unguards => exact (append_nil _).symm
  | @act n a _ ha =>
    rw [(turns_act hstep.2.1 ha).nameReports_eq]
    congr 1
    cases a with
    | load v =>
      simp only [Act.nameReports, hs.views_eq, hs.isGuarded_eq, missed?, early?]
      cases v.nameOf?.filter _ <;> rfl
    | delete m =>
      simp only [Act.nameReports, hs.views_eq, missed?, early?]
      cases (Value.node m).nameOf?.filter _ <;> rfl
    | _ => rfl
  | late _ hspeech =>
    rw [hspeech.nameReports_eq (by decide)]
    exact (append_nil _).symm
  | future _ _ hbind => exact (turns_bind hbind).nameReports_eq

theorem Leads.functions_eq (h : step.Leads cfg s t) : t.functions = s.functions.map fun entries =>
    entries ++ (step.task?.map fun task => ⟨task, s.stack, s.shift⟩).toList.toArray := by
  have hsame (heq : t.functions = s.functions) : t.functions = s.functions.map fun entries =>
      entries ++ ([] : List Deferred).toArray := by simp [heq]
  cases h with
  | enter | leave | opens | closes | guards | unguards => exact hsame rfl
  | @act n a _ ha => exact hsame ((a.run_mild cfg).ok ha).functions_eq
  | late _ hspeech => exact hsame hspeech.alike.functions_eq
  | future _ _ hbind => exact hsame ((mild_bind _ _ _ _).ok hbind).functions_eq
  | @defers _ task entries hentries =>
    have hfunctions : s.functions = some entries := hentries
    rw [hfunctions]
    simp [State.withTask, State.setQueue, task?]

theorem length_scene (h : step.after? k = some k') (hlength : sc.stack.length = k + 1) :
    (step.scene sc).stack.length = k' + 1 := by
  match step with
  | .enter _ _ | .leave _ | .take _ (.late _) | .take _ (.visit _) | .take _ (.guards _)
  | .take _ .unguards | .take _ (.defers _) =>
    cases h
    exact hlength
  | .take _ (.act _) | .take _ (.future _) =>
    cases h
    rw [scene, Scene.stack_alter]
    exact hlength
  | .take _ (.opens _) =>
    cases h
    rw [scene, Scene.opened, length_cons, hlength]
  | .take _ .closes =>
    rw [after?] at h
    split at h
    · cases h
    · cases h
      rw [scene, length_tail, hlength]
      omega

/-- Some steps, as they are seen: at the end the state shows the scene that the steps make, and the
tasks that they put off are in the queue. -/
theorem shows_runAll {steps : List Step} (hsteps : ∀ step ∈ steps, step.IsFrom cfg among)
    (hheight : Step.height? k steps = some k') (hs : s.Shows o sc)
    (hlength : sc.stack.length = k + 1) (h : runAll cfg steps s = .ok () t) :
    t.Shows o (sceneAfter sc steps) ∧ (sceneAfter sc steps).stack.length = k' + 1 ∧
      t.shift = s.shift ∧ t.functions = s.functions.map fun entries =>
        entries ++ ((put sc steps).map (o.deferred s.shift)).toArray := by
  induction steps generalizing s sc k with
  | nil =>
    cases h
    cases hheight
    exact ⟨hs, hlength, rfl, by simp [put]⟩
  | cons step rest ih =>
    obtain ⟨hstep, hrest⟩ := forall_mem_cons.mp hsteps
    obtain ⟨r, hfirst, hlater⟩ := runAll_cons_eq_ok.mp h
    rw [height?_cons] at hheight
    obtain ⟨j, hj, hheight⟩ := Option.bind_eq_some_iff.mp hheight
    have hleads := leads_of_run hstep hfirst
    have hopen : sc.stack ≠ [] := by
      intro hnil
      rw [hnil] at hlength
      cases hlength
    obtain ⟨hshows, hend, hshift, hfunctions⟩ :=
      ih hrest hheight (hleads.shows hstep hs hopen) (length_scene hj hlength) hlater
    refine ⟨hshows, hend, hshift.trans hleads.shift_eq, ?_⟩
    rw [hfunctions, hleads.functions_eq, hleads.shift_eq, Option.map_map, put, hs.stack_eq]
    congr 1
    funext entries
    cases step.task? <;> simp [Base.deferred]

end Step

end ScopeLint
