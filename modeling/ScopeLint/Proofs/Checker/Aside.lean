import ScopeLint.Proofs.Checker.BindingEvents
import ScopeLint.Proofs.Checker.Scenes
import ScopeLint.Proofs.Checker.TaskSteps

/-! # Work that is not on the tree

The examples in docstrings are trees of their own, with numbers from `next` on. What a check does about
such trees leaves the program alone: scopes that were there before hold the same, the nodes of the tree
keep their marks and their places, and no report on a name is about one of them. -/
namespace ScopeLint

open List Check

variable {cfg : Setup} {next : Nat} {s t r : State} {o : Base} {sc : Scene} {among : Node → Prop}

/-- Whether a value, if it is a node, has a number from `next` on. -/
def Value.IsBeyond (next : Nat) (v : Value) : Prop := ∀ m, v = .node m → next ≤ m.id

def subject? : List Datum → Option Nat
  | .object _ id _ :: _ => id
  | _ => none

namespace State

/-- The reports on names that are about nodes with numbers below `next`. -/
def reportsBelow (next : Nat) (s : State) : List (Kind × List Datum) :=
  s.nameReports.filter fun r => (subject? r.2).any (· < next)

theorem subject?_datumOf (s : State) (v : Value) (rest : List Datum) :
    subject? (s.datumOf v :: rest) = v.node?.map (·.id) := by
  cases v with
  | node n =>
    unfold datumOf
    dsimp only
    split <;> rfl
  | _ => rfl

theorem reportsBelow_of_append {new : List (Kind × List Datum)}
    (h : t.nameReports = s.nameReports ++ new)
    (hnew : ∀ r ∈ new, ∃ v : Value, v.IsBeyond next ∧ subject? r.2 = v.node?.map (·.id)) :
    t.reportsBelow next = s.reportsBelow next := by
  have hnone : new.filter (fun r => (subject? r.2).any (· < next)) = [] := by
    refine filter_eq_nil_iff.mpr fun r hr => ?_
    obtain ⟨v, hv, hsubject⟩ := hnew r hr
    rw [hsubject]
    cases v with
    | node n =>
      have hle := hv n rfl
      simpa [Value.node?] using hle
    | _ => simp [Value.node?]
  rw [reportsBelow, h, filter_append, hnone, append_nil, reportsBelow]

end State

/-- Nodes of trees with numbers from `next` on, and what a step can be about there. -/
theorem covers_freshFrom (next : Nat) : Covers (NodeOf.FreshFrom next) (Value.IsBeyond next) where
  node n hn := by
    rintro m heq
    cases heq
    exact hn n n.self_mem_nodes
  target n v hn h := by
    rintro m rfl
    exact hn m (NodeOf.mem_nodes_of_mem_children
      (NodeOf.mem_children_of_get h (by simp [Value.children])))

theorem NodeOf.freshFrom_of_mem (next : Nat) (n : Node) (h : n.FreshFrom next) (m : Node)
    (hm : m ∈ n.nodes) : m.FreshFrom next :=
  fun k hk => h k ((NodeOf.sublist_of_mem_nodes n hm).subset hk)

/-- A check that has started at the state `r` with work beside the tree, and is now at the state `t`. -/
structure Aside (next : Nat) (o : Base) (sc : Scene) (r t : State) : Prop where
  shows : t.Shows o sc
  held_eq : ∀ id : Nat, id < o.size → ∀ key, t.held id key = r.held id key
  uses : ∀ use, t.UsedBy use → use.scope < t.scopes.size ∧ (o.size ≤ use.scope → use.node.IsBeyond next)
  mark_eq : ∀ n : Node, n.id < next → t.mark? n = r.mark? n
  position_eq : ∀ n : Node, n.id < next → t.position? n = r.position? n
  reports_eq : t.reportsBelow next = r.reportsBelow next

theorem Step.length_made_le (sc : Scene) (step : Step) :
    sc.made.length ≤ (step.scene sc).made.length := by
  match step with
  | .take _ (.act _) | .take _ (.future _) => exact Nat.le_of_eq (sc.length_made_alter _).symm
  | .take _ (.opens _) => simp [scene, Scene.opened]
  | .enter _ _ | .leave _ | .take _ (.late _) | .take _ (.visit _) | .take _ .closes
  | .take _ (.guards _) | .take _ .unguards | .take _ (.defers _) => exact Nat.le_refl _

namespace Aside

variable (h : Aside next o sc r s)

include h

theorem head?_stack (hopen : sc.stack ≠ []) :
    ∃ d, d < sc.made.length ∧ s.stack.head? = some (o.size + d) := by
  obtain ⟨d, ds, hstack⟩ := exists_cons_of_ne_nil hopen
  refine ⟨d, h.shows.bound d (by simp [hstack]), ?_⟩
  rw [h.shows.stack_eq, hstack]
  rfl

theorem reportsBelow_step (hopen : sc.stack ≠ []) {step : Step}
    (hstep : step.IsFrom cfg (NodeOf.FreshFrom next)) (hl : step.Leads cfg s t) :
    t.reportsBelow next = s.reportsBelow next := by
  refine State.reportsBelow_of_append (hl.nameReports_eq hstep h.shows) fun report hreport => ?_
  rcases mem_append.mp hreport with hmissed | hearly
  · obtain ⟨⟨v, name⟩, hv, rfl⟩ := mem_map.mp hmissed
    refine ⟨v, ?_, s.subject?_datumOf v _⟩
    exact Step.mem_of_missed? hstep (covers_freshFrom next) (Option.mem_toList.mp hv)
  · obtain ⟨n, name, use, b, hbefore, rfl⟩ := Step.exists_of_early? (Option.mem_toList.mp hearly)
    obtain ⟨huse, hhead⟩ := State.usedBefore?_eq_some hbefore
    obtain ⟨d, -, htop⟩ := h.head?_stack hopen
    have hscope : use.scope = o.size + d := Option.some.inj (hhead.symm.trans htop)
    refine ⟨use.node, (h.uses use huse).2 ?_, s.subject?_datumOf _ _⟩
    rw [hscope]
    exact Nat.le_add_right _ _

theorem step (hopen : sc.stack ≠ []) {step : Step}
    (hstep : step.IsFrom cfg (NodeOf.FreshFrom next)) (hl : step.Leads cfg s t) :
    Aside next o (step.scene sc) r t := by
  obtain ⟨d, hd, htop⟩ := h.head?_stack hopen
  have hshows := hl.shows hstep h.shows hopen
  have hsize : s.scopes.size ≤ t.scopes.size := by
    rw [h.shows.size_eq, hshows.size_eq]
    exact Nat.add_le_add_left (step.length_made_le sc) _
  have hbeyond {m k : Node} (henter : step = .enter m k) : next ≤ m.id := by
    subst henter
    exact hstep.1 m m.self_mem_nodes
  refine ⟨hshows, fun id hid key => ?_, fun use huse => ?_, fun n hn => ?_, fun n hn => ?_, ?_⟩
  · have hne : s.stack.head? ≠ some id := by
      rw [htop]
      intro heq
      have hlt : o.size + d < o.size := Option.some.inj heq ▸ hid
      omega
    rw [hl.held_eq hstep hne, h.held_eq id hid]
  · rcases hl.usedBy hstep (covers_freshFrom next) huse with hold | ⟨hhead, hnode⟩
    · obtain ⟨hlt, hbeyond⟩ := h.uses use hold
      exact ⟨Nat.lt_of_lt_of_le hlt hsize, hbeyond⟩
    · have hscope : use.scope = o.size + d := Option.some.inj (hhead.symm.trans htop)
      refine ⟨Nat.lt_of_lt_of_le ?_ hsize, fun _ => hnode⟩
      rw [hscope, h.shows.size_eq]
      exact Nat.add_lt_add_left hd _
  · rw [← h.mark_eq n hn, State.mark?, State.mark?, hl.marks_eq]
    cases step with
    | enter m k =>
      have hne : (n.id == m.id) = false := by
        have hle := hbeyond rfl
        simp only [beq_eq_false_iff_ne]
        omega
      rw [Step.marks, lookup_cons, hne]
    | _ => rfl
  · rw [← h.position_eq n hn, State.position?, State.position?]
    rcases hl.moved_cases with heq | ⟨m, k, p, shift, henter, -, heq⟩
    · rw [heq]
    · have hne : (n.id == m.id) = false := by
        have hle := hbeyond henter
        simp only [beq_eq_false_iff_ne]
        omega
      rw [heq, lookup_cons, hne]
  · rw [h.reportsBelow_step hopen hstep hl, h.reports_eq]

theorem runAll {steps : List Step}
    (hsteps : ∀ step ∈ steps, step.IsFrom cfg (NodeOf.FreshFrom next)) {k k' : Nat}
    (hheight : Step.height? k steps = some k') (hlength : sc.stack.length = k + 1)
    (hrun : Step.runAll cfg steps s = .ok () t) : Aside next o (Step.sceneAfter sc steps) r t := by
  induction steps generalizing s sc k with
  | nil =>
    cases hrun
    exact h
  | cons step rest ih =>
    obtain ⟨hstep, hrest⟩ := forall_mem_cons.mp hsteps
    obtain ⟨u, hfirst, hlater⟩ := Step.runAll_cons_eq_ok.mp hrun
    rw [Step.height?_cons] at hheight
    obtain ⟨j, hj, hheight⟩ := Option.bind_eq_some_iff.mp hheight
    have hopen : sc.stack ≠ [] := by
      intro hnil
      rw [hnil] at hlength
      cases hlength
    exact ih (h.step hopen hstep (leads_of_run hstep hfirst)) hrest hheight
      (Step.length_scene hj hlength) hlater

end Aside

/-- Tasks that have nothing to do with the tree: the work on docstrings, and the bodies of functions in
examples. -/
def Task.IsAside (next : Nat) : Task → Prop
  | .body n _ => n.FreshFrom next
  | .doctests _ => True
  | _ => False

/-- What a task beside the tree leaves alone. -/
structure State.Spares (next : Nat) (r t : State) : Prop where
  size_le : r.scopes.size ≤ t.scopes.size
  view_eq : ∀ id : Nat, id < r.scopes.size → t.viewOf id = r.viewOf id
  held_eq : ∀ id : Nat, id < r.scopes.size → ∀ key, t.held id key = r.held id key
  uses : ∀ use, t.UsedBy use → use.scope < t.scopes.size
  mark_eq : ∀ n : Node, n.id < next → t.mark? n = r.mark? n
  position_eq : ∀ n : Node, n.id < next → t.position? n = r.position? n
  reports_eq : t.reportsBelow next = r.reportsBelow next
  free : next ≤ t.nextNode
  queue : ∃ more : List Deferred, t.functions = r.functions.map (· ++ more.toArray) ∧
    ∀ d ∈ more, d.task.IsAside next

def State.base (s : State) : Base := ⟨s.scopes.size, s.viewOf, s.stack⟩

theorem State.shows_first (hguards : s.guards = [.list []])
    (hstack : ∀ id : Nat, id ∈ s.stack → id < s.scopes.size) (kind : ScopeKind) :
    (s.opened kind).Shows s.base (.first kind) := by
  have hview (id : ScopeId) : (s.opened kind).viewOf id =
      if id = s.scopes.size then (Scope.empty kind).view else s.viewOf id := by
    simp only [viewOf, scope?, opened, Array.getElem?_push]
    split <;> rfl
  refine ⟨rfl, Array.size_push .., hguards, fun d hd => ?_, fun id hid => ?_, ?_, hstack⟩
  · obtain rfl : d = 0 := Nat.lt_one_iff.mp hd
    have heq : s.base.size + 0 = s.scopes.size := rfl
    rw [hview, if_pos heq]
    rfl
  · have hne : id ≠ s.scopes.size := Nat.ne_of_lt hid
    rw [hview, if_neg hne]
    rfl
  · intro d hd
    rw [mem_singleton.mp hd]
    exact Nat.one_pos

namespace Step

theorem among_of_put {steps : List Step} (hsteps : ∀ step ∈ steps, step.IsFrom cfg among)
    {x : Task × List Nat} (hx : x ∈ put sc steps) : (∃ n names, x.1 = .body n names ∧ among n) ∨
      ∃ n, x.1 = .doctests n ∧ among n := by
  induction steps generalizing sc with
  | nil => cases hx
  | cons step rest ih =>
    obtain ⟨hstep, hrest⟩ := forall_mem_cons.mp hsteps
    rcases mem_append.mp hx with hx | hx
    · obtain ⟨task, htask, rfl⟩ := Option.map_eq_some_iff.mp (Option.mem_toList.mp hx)
      match step with
      | .take n (.defers (.body m names)) =>
        cases htask
        obtain rfl : m = n := hstep.2.1.1
        exact .inl ⟨m, names, rfl, hstep.1⟩
      | .take n (.defers (.doctests m)) =>
        cases htask
        obtain rfl : m = n := hstep.2.1.1
        exact .inr ⟨m, rfl, hstep.1⟩
      | .take n (.defers .assignments) | .take n (.defers (.returns _)) => exact hstep.2.1.elim
    · exact ih hrest hx

end Step

namespace Aside

theorem first (hguards : s.guards = [.list []])
    (hstack : ∀ id : Nat, id ∈ s.stack → id < s.scopes.size)
    (huses : ∀ use, s.UsedBy use → use.scope < s.scopes.size) :
    Aside next s.base (.first .function) s (s.opened .function) := by
  refine ⟨State.shows_first hguards hstack .function, fun id _ key => ?_, fun use huse => ?_,
    fun _ _ => rfl, fun _ _ => rfl, rfl⟩
  · rw [State.held, State.held, State.binding?_opened]
  · obtain ⟨id, key, b, hb, hused⟩ := huse
    rw [State.binding?_opened] at hb
    have hlt := huses use ⟨id, key, b, hb, hused⟩
    refine ⟨?_, fun hle => absurd hle (Nat.not_le.mpr hlt)⟩
    rw [State.opened, Array.size_push]
    exact Nat.lt_succ_of_lt hlt

/-- What makes no difference here. -/
theorem of_eq (h : Aside next o sc r s) (hscopes : t.scopes = s.scopes) (hstack : t.stack = s.stack)
    (hguards : t.guards = s.guards) (hmarks : t.marks = s.marks) (hmoved : t.moved = s.moved)
    (hreports : t.nameReports = s.nameReports) : Aside next o sc r t := by
  have hbinding (id : ScopeId) (key : Datum.Key) : t.binding? id key = s.binding? id key := by
    rw [State.binding?, State.binding?, State.scope?, State.scope?, hscopes]
  refine ⟨h.shows.of_eq hscopes hstack hguards, fun id hid key => ?_, fun use huse => ?_,
    fun n hn => ?_, fun n hn => ?_, ?_⟩
  · rw [State.held, hbinding]
    exact h.held_eq id hid key
  · obtain ⟨id, key, b, hb, hused⟩ := huse
    rw [hbinding] at hb
    rw [hscopes]
    exact h.uses use ⟨id, key, b, hb, hused⟩
  · rw [State.mark?, hmarks]
    exact h.mark_eq n hn
  · rw [State.position?, hmoved]
    exact h.position_eq n hn
  · rw [State.reportsBelow, hreports]
    exact h.reports_eq

/-- The end of a task beside the tree, when the scope of the task has been closed. -/
theorem spares (h : Aside next r.base sc r s) (hscopes : t.scopes = s.scopes)
    (hmarks : t.marks = s.marks) (hmoved : t.moved = s.moved) (hreports : t.nameReports = s.nameReports)
    (hfree : next ≤ t.nextNode) {more : List Deferred}
    (hqueue : t.functions = r.functions.map (· ++ more.toArray))
    (hmore : ∀ d ∈ more, d.task.IsAside next) : r.Spares next t := by
  -- the stack and the guards aside, the state is as it was
  have ht : Aside next r.base sc r { t with stack := s.stack, guards := s.guards } :=
    h.of_eq hscopes rfl rfl hmarks hmoved hreports
  refine ⟨?_, ht.shows.older_eq, ht.held_eq, fun use huse => (ht.uses use huse).1, ht.mark_eq,
    ht.position_eq, ht.reports_eq, hfree, more, hqueue, hmore⟩
  rw [hscopes, h.shows.size_eq]
  exact Nat.le_add_right _ _

end Aside

theorem Step.nextNode_runAll {steps : List Step} (hsteps : ∀ step ∈ steps, step.IsFrom cfg among)
    (h : runAll cfg steps s = .ok () t) : t.nextNode = s.nextNode :=
  runAll_invariant (P := fun r => r.nextNode = s.nextNode)
    (fun _ _ _ _ hl hr => hl.nextNode_eq.trans hr) hsteps h rfl

section Tasks

variable {d : Deferred} {n : Node} {base : Shift} {docLine : Datum}

theorem isAside_of_put {steps : List Step}
    (hsteps : ∀ step ∈ steps, step.IsFrom cfg (NodeOf.FreshFrom next)) {shift : Option Shift}
    (hd : d ∈ (Step.put sc steps).map (o.deferred shift)) : d.task.IsAside next := by
  obtain ⟨x, hx, rfl⟩ := mem_map.mp hd
  rcases Step.among_of_put hsteps hx with ⟨n, names, htask, hn⟩ | ⟨n, htask, -⟩
  · rw [Base.deferred, htask]
    exact hn
  · rw [Base.deferred, htask]
    trivial

/-- A check that goes through the examples of a docstring, with the work that they have put off. -/
structure Aside.Excerpts (next : Nat) (o : Base) (r t : State) : Prop where
  aside : ∃ sc, Aside next o sc r t ∧ sc.stack.length = 1
  free : next ≤ t.nextNode
  queue : ∃ more : List Deferred, t.functions = r.functions.map (· ++ more.toArray) ∧
    ∀ d ∈ more, d.task.IsAside next

theorem Aside.Excerpts.next_example {e : Example} (h : Aside.Excerpts next o r s)
    (hrun : runExample cfg (visit cfg) n base docLine e s = .ok () t) :
    Aside.Excerpts next o r t := by
  obtain ⟨⟨sc, haside, hlength⟩, hfree, more, hqueue, hmore⟩ := h
  rcases exists_exampleSteps hrun with ⟨tree, shift, steps, u, -, -, hsteps, htaken, rfl⟩ |
    hspeech
  · have hnumbered := NodeOf.numberedFrom s.nextNode tree
    have hfresh : (tree.numbered s.nextNode).1.FreshFrom next := fun m hm =>
      Nat.le_trans hfree (hnumbered.bounds hm).1
    have hfrom := NodeOf.isFrom_childSteps (NodeOf.freshFrom_of_mem next) hfresh hsteps
    have hstart : Aside next o sc r (s.forExample tree shift) := haside.of_eq rfl rfl rfl rfl rfl rfl
    have hheight := height?_stepsOfAll hsteps 0
    have hend := hstart.runAll hfrom hheight hlength htaken
    obtain ⟨-, hlength', -, hfunctions⟩ := Step.shows_runAll hfrom hheight hstart.shows hlength htaken
    refine ⟨⟨_, hend.of_eq rfl rfl rfl rfl rfl rfl, hlength'⟩, ?_,
      more ++ (Step.put sc steps).map (o.deferred (some shift)), ?_,
      forall_mem_append.mpr ⟨hmore, fun d hd => isAside_of_put hfrom hd⟩⟩
    · change next ≤ u.nextNode
      rw [Step.nextNode_runAll hfrom htaken]
      exact Nat.le_trans hfree hnumbered.1
    · have hqueue' : (s.forExample tree shift).functions = r.functions.map (· ++ more.toArray) := hqueue
      change u.functions = _
      rw [hfunctions, hqueue', Option.map_map]
      congr 1
      funext entries
      simp [State.forExample]
  · have hkinds : ∀ k ∈ [Kind.doctestSyntaxError], k.isOnNames = false := by decide
    refine ⟨⟨sc, haside.of_eq hspeech.scopes_eq hspeech.alike.stack_eq hspeech.alike.guards_eq
      hspeech.alike.marks_eq hspeech.moved_eq (hspeech.nameReports_eq hkinds), hlength⟩, ?_, more,
        ?_, hmore⟩
    · rw [hspeech.alike.nextNode_eq]
      exact hfree
    · rw [hspeech.alike.functions_eq]
      exact hqueue

theorem Aside.Excerpts.examples {examples : List Example} (h : Aside.Excerpts next o r s)
    (hrun : examples.forM (runExample cfg (visit cfg) n base docLine) s = .ok () t) :
    Aside.Excerpts next o r t := by
  induction examples generalizing s with
  | nil =>
    cases hrun
    exact h
  | cons e rest ih =>
    obtain ⟨_, u, hfirst, hrest⟩ := bind_apply_eq_ok.mp hrun
    exact ih (h.next_example hfirst) hrest

theorem Check.spares_runTask {i : Nat} (hd : d.task.IsAside next)
    (hguards : r.guards = [.list []]) (hstack : ∀ id : Nat, id ∈ d.stack → id < r.scopes.size)
    (huses : ∀ use, r.UsedBy use → use.scope < r.scopes.size) (hfree : next ≤ r.nextNode)
    (h : runTask cfg (visit cfg) d.task (r.resumed .functions i d) = .ok () t) : r.Spares next t := by
  have hstart : Aside next (r.resumed .functions i d).base (.first .function)
      (r.resumed .functions i d) ((r.resumed .functions i d).opened .function) :=
    .first hguards hstack huses
  have hback (hspares : (r.resumed .functions i d).Spares next t) : r.Spares next t :=
    ⟨hspares.size_le, hspares.view_eq, hspares.held_eq, hspares.uses, hspares.mark_eq,
      hspares.position_eq, hspares.reports_eq, hspares.free, hspares.queue⟩
  refine hback ?_
  generalize htask : d.task = task at hd h
  cases task with
  | body n names =>
    obtain ⟨steps, u, top, rest, entries, hsteps, hrun, -, rfl⟩ := exists_bodySteps h
    have hfrom := NodeOf.isFrom_bodySteps (NodeOf.freshFrom_of_mem next) hd hsteps
    have hheight := NodeOf.height?_bodySteps hsteps 0
    have hend := hstart.runAll hfrom hheight rfl hrun
    obtain ⟨-, -, -, hfunctions⟩ := Step.shows_runAll hfrom hheight hstart.shows rfl hrun
    refine hend.spares rfl rfl rfl (State.nameReports_of_event rfl rfl) ?_ hfunctions
      fun e he => isAside_of_put hfrom he
    change next ≤ u.nextNode
    rw [Step.nextNode_runAll hfrom hrun]
    exact hfree
  | doctests n =>
    rcases runDoctests_cases cfg (visit cfg) n (r.resumed .functions i d) with
      ⟨e, heq⟩ | ⟨found, -, -, heq⟩ | ⟨text, line, examples, -, -, heq⟩
    · exact absurd (heq.symm.trans h) (by simp)
    · cases heq.symm.trans h
      exact ⟨Nat.le_refl _, fun _ _ => rfl, fun _ _ _ => rfl, huses, fun _ _ => rfl, fun _ _ => rfl,
        rfl, hfree, [], by simp, by simp⟩
    · obtain ⟨u, hrun, hpop⟩ := inScope_eq_ok (heq.symm.trans h)
      have hbegin : Aside.Excerpts next (r.resumed .functions i d).base (r.resumed .functions i d)
          ((r.resumed .functions i d).opened .function) :=
        ⟨⟨_, hstart, rfl⟩, hfree, [], by simp [State.opened], by simp⟩
      obtain ⟨⟨sc, haside, -⟩, hfree', more, hqueue, hmore⟩ := hbegin.examples hrun
      obtain ⟨id, rest, -, rfl⟩ := popScope_eq_ok hpop
      exact haside.spares rfl rfl rfl rfl hfree' hqueue hmore
  | assignments | returns => exact hd.elim

end Tasks

end ScopeLint
