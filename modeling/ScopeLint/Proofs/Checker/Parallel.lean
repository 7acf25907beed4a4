import ScopeLint.Proofs.Checker.Abreast
import ScopeLint.Proofs.Checker.Aside
import ScopeLint.Proofs.Checker.Drains

/-! # A check with and without docstrings

Two checks of one tree, of which only the second looks at docstrings, go through the same bodies in
the same order. In between the second one has work beside the tree. Between the tasks every scope of
the first check has one in the second that stands for it. -/
namespace ScopeLint

open List Check

/-- The two checks between tasks: the first does not look at docstrings. Every scope of the first
has one in the second that stands for it, where the same is bound to the same names. -/
structure Parallel (cfg : Setup) (next : Nat) (old : ScopeId → ScopeId → Prop) (s t : State) :
    Prop where
  left_run : Run (cfg.withDoctests false) next s
  right_run : Run (cfg.withDoctests true) next t
  iff : ∀ {i j i' j'}, old i j → old i' j' → (i = i' ↔ j = j')
  lt : ∀ {i j : Nat}, old i j → i < s.scopes.size ∧ j < t.scopes.size
  total : ∀ i : Nat, i < s.scopes.size → ∃ j, old i j
  view_eq : ∀ {i j}, old i j → s.viewOf i = t.viewOf j
  held_eq : ∀ {i j}, old i j → ∀ key, s.held i key = t.held j key
  inside : ∀ {i j}, old i j → ∀ key x, s.held i key = some x → x.2.IsIn cfg.root
  left_uses : ∀ use, s.UsedBy use → use.scope < s.scopes.size
  right_uses : ∀ use, t.UsedBy use → use.scope < t.scopes.size
  map : s.SameMap cfg.root t
  free : next ≤ t.nextNode
  reports_eq : s.reportsBelow next = t.reportsBelow next

/-- The same body in both checks, with stacks that stand for each other. -/
structure Deferred.Twin (root : Node) (old : ScopeId → ScopeId → Prop) (d e : Deferred) : Prop where
  body : ∃ n names, d.task = .body n names ∧ n ∈ root.nodes
  task_eq : e.task = d.task
  left_shift : d.shift = none
  right_shift : e.shift = none
  stacks_paired : List.Forall₂ old d.stack e.stack

/-- The work that is still to be done: the same bodies, with work beside the tree in between. -/
inductive Queues (root : Node) (next : Nat) (old : ScopeId → ScopeId → Prop) :
    List Deferred → List Deferred → Prop
  | nil : Queues root next old [] []
  | both {d e ds es} : d.Twin root old e → Queues root next old ds es →
      Queues root next old (d :: ds) (e :: es)
  | aside {e ds es} : e.task.IsAside next → Queues root next old ds es →
      Queues root next old ds (e :: es)

variable {cfg : Setup} {root : Node} {next i j : Nat} {old : ScopeId → ScopeId → Prop} {o p : Base}
  {sc : Scene} {s t s' t' : State} {d e : Deferred}

section Queues

variable {new : ScopeId → ScopeId → Prop} {ds es ds' es' : List Deferred}

theorem Queues.append (h : Queues root next old ds es) (h' : Queues root next old ds' es') :
    Queues root next old (ds ++ ds') (es ++ es') := by
  induction h with
  | nil => exact h'
  | both htwin _ ih => exact .both htwin ih
  | aside he _ ih => exact .aside he ih

theorem Queues.mono (h : Queues root next old ds es) (hmono : ∀ {i j}, old i j → new i j) :
    Queues root next new ds es := by
  induction h with
  | nil => exact .nil
  | both htwin _ ih =>
    exact .both { htwin with stacks_paired := htwin.stacks_paired.imp fun _ _ => hmono } ih
  | aside he _ ih => exact .aside he ih

theorem Queues.of_aside (h : ∀ e ∈ es, e.task.IsAside next) : Queues root next old [] es := by
  induction es with
  | nil => exact .nil
  | cons e rest ih =>
    obtain ⟨he, hrest⟩ := forall_mem_cons.mp h
    exact .aside he (ih hrest)

end Queues

/-- Which scopes stand for each other after some steps. -/
def Scene.Pairs (o p : Base) (old : ScopeId → ScopeId → Prop) (sc : Scene) (i j : ScopeId) : Prop :=
  (∃ d, d < sc.made.length ∧ i = o.size + d ∧ j = p.size + d) ∨ old i j

theorem Scene.Pairs.base {i j : ScopeId} (h : sc.Pairs o p old i j) : o.Pairs p old i j := by
  rcases h with ⟨d, -, rfl, rfl⟩ | h
  · exact .made d
  · exact .older h

namespace Step

variable {among : Node → Prop} {steps : List Step}

theorem uses_runAll (hsteps : ∀ step ∈ steps, step.IsFrom cfg among) {k k' : Nat}
    (hheight : height? k steps = some k') (hs : s.Shows o sc) (hlength : sc.stack.length = k + 1)
    (huses : ∀ use, s.UsedBy use → use.scope < s.scopes.size) (h : runAll cfg steps s = .ok () t) :
    ∀ use, t.UsedBy use → use.scope < t.scopes.size := by
  induction steps generalizing s sc k with
  | nil =>
    cases h
    exact huses
  | cons step rest ih =>
    obtain ⟨hstep, hrest⟩ := forall_mem_cons.mp hsteps
    obtain ⟨r, hfirst, hlater⟩ := runAll_cons_eq_ok.mp h
    rw [height?_cons] at hheight
    obtain ⟨j, hj, hheight⟩ := Option.bind_eq_some_iff.mp hheight
    obtain ⟨d, ds, hstack⟩ := exists_cons_of_length_eq_add_one hlength
    have hopen : sc.stack ≠ [] := by simp [hstack]
    have hleads := leads_of_run hstep hfirst
    have hshows := hleads.shows hstep hs hopen
    refine ih hrest hheight hshows (length_scene hj hlength) (fun use huse => ?_) hlater
    have hsize : s.scopes.size ≤ r.scopes.size := by
      rw [hs.size_eq, hshows.size_eq]
      exact Nat.add_le_add_left (step.length_made_le sc) _
    have hcovers : Covers among fun _ => True := ⟨fun _ _ => trivial, fun _ _ _ _ => trivial⟩
    rcases hleads.usedBy hstep hcovers huse with hold | ⟨hhead, -⟩
    · exact Nat.lt_of_lt_of_le (huses use hold) hsize
    · rw [hs.stack_eq, hstack] at hhead
      have hscope : o.size + d = use.scope := Option.some.inj hhead
      refine Nat.lt_of_lt_of_le ?_ hsize
      rw [← hscope, hs.size_eq]
      exact Nat.add_lt_add_left (hs.bound d (by simp [hstack])) _

theorem length_made_sceneAfter_le (sc : Scene) (steps : List Step) :
    sc.made.length ≤ (sceneAfter sc steps).made.length := by
  induction steps generalizing sc with
  | nil => exact Nat.le_refl _
  | cons step rest ih => exact Nat.le_trans (step.length_made_le sc) (ih (step.scene sc))

theorem bound_scene (step : Step) (hbound : ∀ d ∈ sc.stack, d < sc.made.length) :
    ∀ d ∈ (step.scene sc).stack, d < (step.scene sc).made.length := by
  match step with
  | .take _ (.act _) | .take _ (.future _) =>
    rw [scene, Scene.stack_alter, Scene.length_made_alter]
    exact hbound
  | .take _ (.opens kind) =>
    intro d hd
    have hlength : (sc.opened kind).made.length = sc.made.length + 1 := by simp [Scene.opened]
    rw [scene, hlength]
    rcases mem_cons.mp hd with rfl | hd
    · exact Nat.lt_succ_self _
    · exact Nat.lt_succ_of_lt (hbound d hd)
  | .take _ .closes => exact fun d hd => hbound d (mem_of_mem_tail hd)
  | .enter _ _ | .leave _ | .take _ (.late _) | .take _ (.visit _) | .take _ (.guards _)
  | .take _ .unguards | .take _ (.defers _) => exact hbound

/-- The scopes that are open when something is put off are among those that have been opened. -/
theorem bound_of_put (hbound : ∀ d ∈ sc.stack, d < sc.made.length) {x : Task × List Nat}
    (hx : x ∈ put sc steps) : ∀ d ∈ x.2, d < (sceneAfter sc steps).made.length := by
  induction steps generalizing sc with
  | nil => cases hx
  | cons step rest ih =>
    rcases mem_append.mp hx with hx | hx
    · obtain ⟨task, -, rfl⟩ := Option.map_eq_some_iff.mp (Option.mem_toList.mp hx)
      exact fun d hd => Nat.lt_of_lt_of_le (hbound d hd)
        (length_made_sceneAfter_le sc (step :: rest))
    · exact ih (bound_scene step hbound) hx

theorem queues_of_put (next : Nat) (hpairing : o.Pairing p old)
    (hsteps : ∀ step ∈ steps, step.IsFrom cfg (· ∈ root.nodes))
    (hbound : ∀ d ∈ sc.stack, d < sc.made.length) :
    Queues root next ((sceneAfter sc steps).Pairs o p old)
      ((put sc (steps.filter (!·.isDoctests))).map (o.deferred none))
      ((put sc steps).map (p.deferred none)) := by
  have hall (xs : List (Task × List Nat)) (hxs : ∀ x ∈ xs, x ∈ put sc steps) :
      Queues root next ((sceneAfter sc steps).Pairs o p old)
        ((xs.filter (!isDoctestsTask ·)).map (o.deferred none)) (xs.map (p.deferred none)) := by
    induction xs with
    | nil => exact .nil
    | cons x rest ih =>
      obtain ⟨hx, hrest⟩ := forall_mem_cons.mp hxs
      rcases among_of_put hsteps hx with ⟨n, names, htask, hn⟩ | ⟨n, htask, -⟩
      · have hkept : (!isDoctestsTask x) = true := by simp [isDoctestsTask, htask]
        rw [filter_cons, if_pos hkept, map_cons, map_cons]
        refine .both ⟨⟨n, names, htask, hn⟩, rfl, rfl, rfl, ?_⟩ (ih hrest)
        refine rel_append (forall₂_map_left_iff.mpr (forall₂_map_right_iff.mpr ?_))
          (hpairing.open_pairs.imp fun _ _ => .inr)
        exact forall₂_same.mpr fun d hd => .inl ⟨d, bound_of_put hbound hx d hd, rfl, rfl⟩
      · have hdropped : (!isDoctestsTask x) ≠ true := by simp [isDoctestsTask, htask]
        rw [filter_cons, if_neg hdropped, map_cons]
        refine .aside ?_ (ih hrest)
        rw [Base.deferred, htask]
        trivial
  rw [put_filter]
  exact hall _ fun x hx => hx

end Step

section Start

variable {see see' : Use → Option Value} {x y : Option Binding}

theorem State.binding?_of_size_le {id : Nat} (h : s.scopes.size ≤ id) (key : Datum.Key) :
    s.binding? id key = none := by
  rw [State.binding?, State.scope?, Array.getElem?_eq_none h, Option.bind_none]

theorem Scene.inner_first (kind : ScopeKind) : (Scene.first kind).Inner where
  kind_ne := fun _ hpos hlt => absurd hlt (Nat.not_lt.mpr hpos)
  sorted := pairwise_singleton _ _

theorem Binding.agree_of_held
    (h : (x.map fun b => (b.kind, b.source)) = y.map fun b => (b.kind, b.source))
    (hin : ∀ z, (x.map fun b => (b.kind, b.source)) = some z → z.2.IsIn root)
    (hx : ∀ b, x = some b → b.used.bind see = none) (hy : ∀ b, y = some b → b.used.bind see' = none) :
    Binding.Agree root see see' x y := by
  cases x with
  | none =>
    cases y with
    | none => exact .none
    | some c => cases h
  | some b =>
    cases y with
    | none => cases h
    | some c =>
      obtain ⟨hkind, hsource⟩ := Prod.mk.inj (Option.some.inj h)
      refine .some hkind hsource ((hx b rfl).trans (hy c rfl).symm) (hin _ rfl) fun v hv => ?_
      rw [hx b rfl] at hv
      cases hv

theorem Binding.held_of_agree (h : Binding.Agree root see see' x y) :
    (x.map fun b => (b.kind, b.source)) = (y.map fun b => (b.kind, b.source)) ∧
      ∀ z, (x.map fun b => (b.kind, b.source)) = some z → z.2.IsIn root := by
  cases h with
  | none => exact ⟨rfl, fun _ h => nomatch h⟩
  | some hkind hsource _ hin _ =>
    refine ⟨by simp [hkind, hsource], fun z hz => ?_⟩
    cases hz
    exact hin

/-- Nothing that was used before is used from a scope that is opened now. -/
theorem Base.bind_sees_eq_none (hi : i < o.size) {used : Option Use}
    (h : ∀ use, used = some use → use.scope < o.size) : used.bind (o.sees i) = none := by
  cases used with
  | none => rfl
  | some use =>
    have hne : use.scope ≠ o.size := Nat.ne_of_lt (h use rfl)
    simp [Base.sees, Nat.not_le.mpr hi, hne]

theorem forall_mem_of_forall₂ {α β : Type} {R : α → β → Prop} {P : α → Prop} {xs : List α} {ys : List β}
    (h : List.Forall₂ R xs ys) (hP : ∀ {x y}, R x y → P x) : ∀ x ∈ xs, P x := by
  induction h with
  | nil => simp
  | cons hxy _ ih => exact forall_mem_cons.mpr ⟨hP hxy, ih⟩

theorem Parallel.abreast (h : Parallel cfg next old s t) (htwin : d.Twin cfg.root old e) (i j : Nat) :
    Abreast cfg (s.resumed .functions i d).base (t.resumed .functions j e).base old
      (.first .function) ((s.resumed .functions i d).opened .function)
      ((t.resumed .functions j e).opened .function) := by
  have hleft : ∀ id : Nat, id ∈ d.stack → id < s.scopes.size :=
    forall_mem_of_forall₂ htwin.stacks_paired fun hij => (h.lt hij).1
  have hright : ∀ id : Nat, id ∈ e.stack → id < t.scopes.size :=
    forall_mem_of_forall₂ htwin.stacks_paired.flip fun hij => (h.lt hij).2
  refine ⟨State.shows_first (s := s.resumed .functions i d) h.left_run.outline.1 hleft .function,
    State.shows_first (s := t.resumed .functions j e) h.right_run.outline.1 hright .function,
    ⟨h.iff, h.lt, h.view_eq, htwin.stacks_paired⟩, Scene.inner_first _, fun {i' j'} hij key => ?_,
    ⟨h.map.mark_eq, h.map.above, h.map.position_eq⟩, ?_, htwin.left_shift, htwin.right_shift⟩
  · rw [State.binding?_opened, State.binding?_opened]
    change Binding.Agree cfg.root _ _ (s.binding? i' key) (t.binding? j' key)
    cases hij with
    | made k =>
      have hs : s.scopes.size ≤ s.scopes.size + k := Nat.le_add_right _ _
      have ht : t.scopes.size ≤ t.scopes.size + k := Nat.le_add_right _ _
      change Binding.Agree cfg.root _ _ (s.binding? (s.scopes.size + k) key)
        (t.binding? (t.scopes.size + k) key)
      rw [State.binding?_of_size_le hs, State.binding?_of_size_le ht]
      exact .none
    | older hold =>
      obtain ⟨hi, hj⟩ := h.lt hold
      refine Binding.agree_of_held (h.held_eq hold key) (h.inside hold key) (fun b hb => ?_)
        fun b hb => ?_
      · exact Base.bind_sees_eq_none hi fun use huse => h.left_uses use ⟨i', key, b, hb, huse⟩
      · exact Base.bind_sees_eq_none hj fun use huse => h.right_uses use ⟨j', key, b, hb, huse⟩
  · exact h.right_run.outline.2.trans h.left_run.outline.2.symm

/-- Where the walk starts. -/
def Base.none : Base := ⟨0, fun _ => (Scope.empty .classBody).view, []⟩

theorem State.shows_initial (next : Nat) : (State.initial next).Shows .none (.first .module) := by
  refine ⟨rfl, rfl, rfl, fun d hd => ?_, fun _ hid => absurd hid (Nat.not_lt_zero _), fun d hd => ?_,
    fun _ hid => nomatch hid⟩
  · obtain rfl : d = 0 := Nat.lt_one_iff.mp hd
    rfl
  · rw [mem_singleton.mp hd]
    exact Nat.one_pos

theorem State.binding?_initial (next : Nat) (id : ScopeId) (key : Datum.Key) :
    (State.initial next).binding? id key = Option.none := by
  cases id with
  | zero => rfl
  | succ id => rfl

theorem Abreast.initial (cfg : Setup) (next : Nat) :
    Abreast cfg .none .none (fun _ _ => False) (.first .module) (State.initial next)
      (State.initial next) := by
  refine ⟨State.shows_initial next, State.shows_initial next, ⟨nofun, nofun, nofun, .nil⟩,
    Scene.inner_first _, fun {i j} _ key => ?_, ⟨fun _ _ => rfl, nofun, fun _ _ => rfl⟩, rfl, rfl, rfl⟩
  rw [State.binding?_initial, State.binding?_initial]
  exact .none

theorem Abreast.parallel {u w : State} (h : Abreast cfg o p old sc u w)
    (htotal : ∀ i : Nat, i < o.size → ∃ j, old i j) (hleft : Run (cfg.withDoctests false) next s)
    (hright : Run (cfg.withDoctests true) next t)
    (hs : s.scopes = u.scopes ∧ s.marks = u.marks ∧ s.moved = u.moved)
    (ht : t.scopes = w.scopes ∧ t.marks = w.marks ∧ t.moved = w.moved)
    (hsuses : ∀ use, s.UsedBy use → use.scope < s.scopes.size)
    (htuses : ∀ use, t.UsedBy use → use.scope < t.scopes.size) (hfree : next ≤ t.nextNode)
    (hreports : s.reportsBelow next = t.reportsBelow next) :
    Parallel cfg next (sc.Pairs o p old) s t := by
  obtain ⟨hsscopes, hsmarks, hsmoved⟩ := hs
  obtain ⟨htscopes, htmarks, htmoved⟩ := ht
  have hsbinding (id : ScopeId) (key : Datum.Key) : s.binding? id key = u.binding? id key := by
    rw [State.binding?, State.binding?, State.scope?, State.scope?, hsscopes]
  have htbinding (id : ScopeId) (key : Datum.Key) : t.binding? id key = w.binding? id key := by
    rw [State.binding?, State.binding?, State.scope?, State.scope?, htscopes]
  have hssize : s.scopes.size = o.size + sc.made.length := by rw [hsscopes, h.left.size_eq]
  have htsize : t.scopes.size = p.size + sc.made.length := by rw [htscopes, h.right.size_eq]
  refine ⟨hleft, hright, fun hij hij' => h.pairing.pairs_iff hij.base hij'.base, fun {i j} hij => ?_,
    fun i hi => ?_, fun hij => ?_, fun hij key => ?_, fun hij key x hx => ?_, hsuses, htuses, ?_, hfree,
    hreports⟩
  · rcases hij with ⟨d, hd, rfl, rfl⟩ | hold
    · omega
    · obtain ⟨hi, hj⟩ := h.pairing.lt hold
      omega
  · by_cases hlt : i < o.size
    · obtain ⟨j, hj⟩ := htotal i hlt
      exact ⟨j, .inr hj⟩
    · have heq : i = o.size + (i - o.size) := (Nat.add_sub_of_le (Nat.le_of_not_lt hlt)).symm
      exact ⟨p.size + (i - o.size), .inl ⟨i - o.size, by omega, heq, rfl⟩⟩
  · rw [State.viewOf_of_scopes hsscopes, State.viewOf_of_scopes htscopes]
    exact h.viewOf_eq hij.base
  · rw [State.held, State.held, hsbinding, htbinding]
    exact (Binding.held_of_agree (h.agree hij.base key)).1
  · rw [State.held, hsbinding] at hx
    exact (Binding.held_of_agree (h.agree hij.base key)).2 x hx
  · refine ⟨fun n hn => ?_, fun n hn k hk => ?_, fun n hn => ?_⟩
    · rw [State.mark?, State.mark?, hsmarks, htmarks]
      exact h.map.mark_eq n hn
    · rw [State.mark?, hsmarks] at hk
      exact h.map.above n hn k hk
    · rw [State.position?, State.position?, hsmoved, htmoved]
      exact h.map.position_eq n hn

theorem State.reportsBelow_append {new : List (Kind × List Datum)}
    (h : s.reportsBelow next = t.reportsBelow next) (hs : s'.nameReports = s.nameReports ++ new)
    (ht : t'.nameReports = t.nameReports ++ new) : s'.reportsBelow next = t'.reportsBelow next := by
  unfold reportsBelow at h ⊢
  rw [hs, ht, filter_append, filter_append, h]

theorem Parallel.body (h : Parallel cfg next old s t) (htwin : d.Twin cfg.root old e)
    (hs : s.Entry .functions i d) (ht : t.Entry .functions j e)
    (hl : runTask (cfg.withDoctests false) (visit (cfg.withDoctests false)) d.task
      (s.resumed .functions i d) = .ok () s')
    (hr : runTask (cfg.withDoctests true) (visit (cfg.withDoctests true)) e.task
      (t.resumed .functions j e) = .ok () t') :
    ∃ new more more', (∀ {a b}, old a b → new a b) ∧ Parallel cfg next new s' t' ∧
      s'.functions = s.functions.map (· ++ more.toArray) ∧
      t'.functions = t.functions.map (· ++ more'.toArray) ∧ Queues cfg.root next new more more' := by
  have hleft := h.left_run.strokes (strokes_of_task hs hl)
  have hright := h.right_run.strokes (strokes_of_task ht hr)
  obtain ⟨n, names, htask, hn⟩ := htwin.body
  rw [htwin.task_eq, htask] at hr
  rw [htask] at hl
  have habreast := h.abreast htwin i j
  obtain ⟨steps, w, top', rest', entries', hsteps, hrun', -, rfl⟩ := exists_bodySteps hr
  obtain ⟨steps', u, top, rest, entries, hsteps', hrun, -, rfl⟩ := exists_bodySteps hl
  cases hsteps'.symm.trans (NodeOf.bodySteps_withDoctests hsteps)
  have hclosed (m : Node) (hm : m ∈ cfg.root.nodes) (k : Node) (hk : k ∈ m.nodes) :
      k ∈ cfg.root.nodes := NodeOf.mem_nodes_of_mem_nodes hm hk
  have hfrom := NodeOf.isFrom_bodySteps hclosed hn hsteps
  have hfrom' := NodeOf.isFrom_bodySteps hclosed hn hsteps'
  have hheight := NodeOf.height?_bodySteps hsteps 0
  have hheight' := NodeOf.height?_bodySteps hsteps' 0
  obtain ⟨hend, new, hnew, hnew'⟩ := habreast.runAll hfrom hheight rfl hrun hrun'
  obtain ⟨-, -, -, hfunctions⟩ := Step.shows_runAll hfrom' hheight' habreast.left rfl hrun
  obtain ⟨-, -, -, hfunctions'⟩ := Step.shows_runAll hfrom hheight habreast.right rfl hrun'
  have hopened {r : State} (hr : ∀ use, r.UsedBy use → use.scope < r.scopes.size) (use : Use)
      (huse : (r.opened .function).UsedBy use) : use.scope < (r.opened .function).scopes.size := by
    obtain ⟨id, key, b, hb, hused⟩ := huse
    rw [State.binding?_opened] at hb
    rw [State.opened, Array.size_push]
    exact Nat.lt_succ_of_lt (hr use ⟨id, key, b, hb, hused⟩)
  have huses := Step.uses_runAll hfrom' hheight' habreast.left rfl
    (hopened (r := s.resumed .functions i d) h.left_uses) hrun
  have huses' := Step.uses_runAll hfrom hheight habreast.right rfl
    (hopened (r := t.resumed .functions j e) h.right_uses) hrun'
  have hqueues := Step.queues_of_put next habreast.pairing hfrom habreast.left.bound
  refine ⟨_, _, _, fun hij => .inr hij, hend.parallel h.total hleft hright ⟨rfl, rfl, rfl⟩
    ⟨rfl, rfl, rfl⟩ huses huses' ?_ ?_, ?_, ?_, hqueues⟩
  · change next ≤ w.nextNode
    rw [Step.nextNode_runAll hfrom hrun']
    exact h.free
  · exact State.reportsBelow_append h.reports_eq
      ((State.nameReports_of_event rfl rfl).trans hnew)
      ((State.nameReports_of_event rfl rfl).trans hnew')
  · have hshift : ((s.resumed .functions i d).opened .function).shift = none := htwin.left_shift
    rw [hshift] at hfunctions
    exact hfunctions
  · have hshift : ((t.resumed .functions j e).opened .function).shift = none := htwin.right_shift
    rw [hshift] at hfunctions'
    exact hfunctions'

end Start

section Drain

theorem Parallel.aside (h : Parallel cfg next old s t) (hnum : cfg.Numbered next)
    (he : e.task.IsAside next) (ht : t.Entry .functions j e)
    (hr : runTask (cfg.withDoctests true) (visit (cfg.withDoctests true)) e.task
      (t.resumed .functions j e) = .ok () t') : Parallel cfg next old s t' ∧ ∃ more : List Deferred,
      t'.functions = t.functions.map (· ++ more.toArray) ∧ ∀ d ∈ more, d.task.IsAside next := by
  have horderly := h.right_run.orderly
  have hstack (id : Nat) (hid : id ∈ e.stack) : id < t.scopes.size :=
    (horderly.saved_based _ _ _ ht).lt_size horderly.kindOf_zero hid
  have hspares := spares_runTask he h.right_run.outline.1 hstack h.right_uses h.free hr
  refine ⟨⟨h.left_run, h.right_run.strokes (strokes_of_task ht hr), h.iff, fun hij => ?_, h.total,
    fun hij => ?_, fun hij key => ?_, h.inside, h.left_uses, hspares.uses, ⟨fun n hn => ?_, h.map.above,
    fun n hn => ?_⟩, hspares.free, h.reports_eq.trans hspares.reports_eq.symm⟩, hspares.queue⟩
  · exact ⟨(h.lt hij).1, Nat.lt_of_lt_of_le (h.lt hij).2 hspares.size_le⟩
  · rw [h.view_eq hij, hspares.view_eq _ (h.lt hij).2]
  · rw [h.held_eq hij, hspares.held_eq _ (h.lt hij).2]
  · rw [hspares.mark_eq n (hnum.bounded n hn), h.map.mark_eq n hn]
  · rw [hspares.position_eq n (hnum.bounded n hn), h.map.position_eq n hn]

theorem State.drop_queued_eq_nil {entries : Array Deferred} (hq : s.functions = some entries)
    (hi : entries.size ≤ i) : s.queued.drop i = [] := by
  rw [State.queued, hq, Option.getD_some, drop_eq_nil_iff]
  simpa using hi

theorem State.drop_queued (hentry : s.Entry .functions i d) :
    s.queued.drop i = d :: s.queued.drop (i + 1) := by
  obtain ⟨hlt, rfl⟩ := List.getElem?_eq_some_iff.mp (entry_iff_queued.mp hentry)
  exact drop_eq_getElem_cons hlt

theorem State.drop_queued_append {more : List Deferred} (hentry : s.Entry .functions i d)
    (h : s'.functions = s.functions.map (· ++ more.toArray)) :
    s'.queued.drop (i + 1) = s.queued.drop (i + 1) ++ more := by
  obtain ⟨hlt, -⟩ := List.getElem?_eq_some_iff.mp (entry_iff_queued.mp hentry)
  obtain ⟨entries, hentries, -⟩ := hentry
  have hfunctions : s.functions = some entries := hentries
  have hqueued : s'.queued = s.queued ++ more := by simp [State.queued, h, hfunctions]
  rw [hqueued, drop_append_of_le_length hlt]

/-- The two checks go through their queues, the second with work beside the tree in between. -/
theorem Parallel.drains (hnum : cfg.Numbered next) {ran' : List Deferred}
    (hr : Drains (cfg.withDoctests true) (visit (cfg.withDoctests true)) j t ran' (.ok () t')) :
    ∀ {old s i ran}, Parallel cfg next old s t →
      Queues cfg.root next old (s.queued.drop i) (t.queued.drop j) →
      Drains (cfg.withDoctests false) (visit (cfg.withDoctests false)) i s ran (.ok () s') →
      ∃ new, Parallel cfg next new s' t' := by
  generalize hresult : EStateM.Result.ok () t' = result at hr
  induction hr with
  | @stop j t entries hq hsize =>
    cases hresult
    intro old s i ran h hqueues hl
    rw [State.drop_queued_eq_nil hq hsize] at hqueues
    cases hl with
    | stop => exact ⟨old, h⟩
    | step hentry htask =>
      rw [State.drop_queued hentry] at hqueues
      cases hqueues
  | fail => cases hresult
  | @step j t e u ran' result ht hr hrest ih =>
    intro old s i ran h hqueues hl
    generalize hds : s.queued.drop i = ds at hqueues
    generalize hes : t.queued.drop j = es at hqueues
    have hnext := State.drop_queued ht
    cases hqueues with
    | nil =>
      rw [hes] at hnext
      cases hnext
    | @both d e' ds' es' htwin hqueues =>
      obtain ⟨rfl, rfl⟩ := cons.inj (hnext.symm.trans hes)
      cases hl with
      | stop hq hsize =>
        rw [State.drop_queued_eq_nil hq hsize] at hds
        cases hds
      | @step _ _ d' v ran _ hs hl hlater =>
        obtain ⟨rfl, rfl⟩ := cons.inj ((State.drop_queued hs).symm.trans hds)
        obtain ⟨new, more, more', hmono, hparallel, hmore, hmore', hadded⟩ := h.body htwin hs ht hl hr
        refine ih hresult hparallel ?_ hlater
        rw [State.drop_queued_append hs hmore, State.drop_queued_append ht hmore']
        exact (hqueues.mono hmono).append hadded
    | @aside e' _ es' he hqueues =>
      obtain ⟨rfl, rfl⟩ := cons.inj (hnext.symm.trans hes)
      obtain ⟨hparallel, more, hmore, hasides⟩ := h.aside hnum he ht hr
      refine ih hresult hparallel ?_ hl
      rw [State.drop_queued_append ht hmore, hds, ← append_nil ds]
      exact hqueues.append (.of_aside hasides)

theorem Parallel.walk
    (hl : visitChildren (visit (cfg.withDoctests false)) cfg.root (State.initial next) =
      .ok () s)
    (hr : visitChildren (visit (cfg.withDoctests true)) cfg.root (State.initial next) =
      .ok () t) :
    ∃ old, Parallel cfg next old s t ∧ Queues cfg.root next old s.queued t.queued := by
  obtain ⟨steps, hsteps, hrun'⟩ := exists_childSteps hr
  obtain ⟨steps', hsteps', hrun⟩ := exists_childSteps hl
  cases hsteps'.symm.trans (stepsOfAll_withDoctests hsteps)
  have hroot : cfg.root ∈ cfg.root.nodes := cfg.root.self_mem_nodes
  have hclosed (m : Node) (hm : m ∈ cfg.root.nodes) (k : Node) (hk : k ∈ m.nodes) :
      k ∈ cfg.root.nodes := NodeOf.mem_nodes_of_mem_nodes hm hk
  have hfrom := NodeOf.isFrom_childSteps hclosed hroot hsteps
  have hfrom' := NodeOf.isFrom_childSteps hclosed hroot hsteps'
  have hheight := height?_stepsOfAll hsteps 0
  have hheight' := height?_stepsOfAll hsteps' 0
  have habreast := Abreast.initial cfg next
  obtain ⟨hend, new, hnew, hnew'⟩ := habreast.runAll hfrom hheight rfl hrun hrun'
  obtain ⟨-, -, hshift, hfunctions⟩ := Step.shows_runAll hfrom' hheight' habreast.left rfl hrun
  obtain ⟨-, -, hshift', hfunctions'⟩ := Step.shows_runAll hfrom hheight habreast.right rfl hrun'
  have hinitial (use : Use) (huse : (State.initial next).UsedBy use) :
      use.scope < (State.initial next).scopes.size := by
    obtain ⟨id, key, b, hb, -⟩ := huse
    rw [State.binding?_initial] at hb
    cases hb
  refine ⟨_, hend.parallel (fun i hi => absurd hi (Nat.not_lt_zero i))
    (.walk (course_of_walk hl)) (.walk (course_of_walk hr)) ⟨rfl, rfl, rfl⟩ ⟨rfl, rfl, rfl⟩
    (Step.uses_runAll hfrom' hheight' habreast.left rfl hinitial hrun)
    (Step.uses_runAll hfrom hheight habreast.right rfl hinitial hrun') ?_ ?_, ?_⟩
  · rw [Step.nextNode_runAll hfrom hrun']
    exact Nat.le_refl _
  · exact State.reportsBelow_append rfl hnew hnew'
  · have hqueues := Step.queues_of_put next habreast.pairing hfrom habreast.left.bound
    have hleft : s.queued = (Step.put (.first .module) (steps.filter (!·.isDoctests))).map
        (Base.none.deferred none) := by
      simp [State.queued, hfunctions, State.initial]
    have hright : t.queued = (Step.put (.first .module) steps).map (Base.none.deferred none) := by
      simp [State.queued, hfunctions', State.initial]
    rw [hleft, hright]
    exact hqueues

/-- The walk and the work that was put off, in both checks. -/
theorem Parallel.explore (hnum : cfg.Numbered next)
    (hl : explore (cfg.withDoctests false) (State.initial next) = .ok () s)
    (hr : explore (cfg.withDoctests true) (State.initial next) = .ok () t) :
    ∃ old, Parallel cfg next old s t := by
  obtain ⟨_, u, hwalk, hdrain⟩ := bind_apply_eq_ok.mp hl
  obtain ⟨_, w, hwalk', hdrain'⟩ := bind_apply_eq_ok.mp hr
  obtain ⟨old, hparallel, hqueues⟩ := Parallel.walk hwalk hwalk'
  have hrounds := get_bind_eq_ok.mp hdrain
  have hrounds' := get_bind_eq_ok.mp hdrain'
  obtain ⟨ran, hran⟩ := exists_drains_of_ok hrounds
  obtain ⟨ran', hran'⟩ := exists_drains_of_ok hrounds'
  exact Parallel.drains hnum hran' hparallel (by simpa using hqueues) hran

end Drain

end ScopeLint
