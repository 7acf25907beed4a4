import ScopeLint.Proofs.Checker.Balance
import ScopeLint.Proofs.Checker.Trail

/-! # Where a run goes

Which nodes are visited, below which node and in what kind of scope, can be read off the tree. A run
that gets through has handled each of these sites. -/
namespace ScopeLint

open List

/-- A node in its place: the node that it is visited below, and the kind of the scope that is open
then. -/
structure Site where
  scope : ScopeKind
  parent : Node
  node : Node

namespace Site

/-- The site of a value that is visited below `n` in a scope of the kind, if it is a node. -/
def ofLeg? (kind : ScopeKind) (n : Node) (leg : Leg) : Option Site :=
  leg.2.node?.map (⟨leg.1.getD kind, n, ·⟩)

/-- The sites right below, in the order in which they are visited. -/
def nexts (d : Dialect) (x : Site) : List Site :=
  (x.node.taken d).filterMap (ofLeg? x.scope x.node)

def laters (x : Site) : List Site :=
  if x.node.isFunction then (legs x.node.deferred).filterMap (ofLeg? .function x.node) else []

theorem ofLeg?_eq_some {kind : ScopeKind} {n : Node} {leg : Leg} {y : Site} :
    ofLeg? kind n leg = some y ↔
      y.scope = leg.1.getD kind ∧ y.parent = n ∧ leg.2 = .node y.node := by
  obtain ⟨scope, parent, node⟩ := y
  obtain ⟨own, v⟩ := leg
  rw [ofLeg?, Option.map_eq_some_iff]
  constructor
  · rintro ⟨m, hm, hy⟩
    cases hy
    refine ⟨rfl, rfl, ?_⟩
    cases v with
    | node m' =>
      cases hm
      rfl
    | _ => cases hm
  · rintro ⟨hscope, hparent, hnode⟩
    dsimp only at hscope hparent hnode
    rw [hscope, hparent, hnode]
    exact ⟨node, rfl, rfl⟩

end Site

namespace Setup

def starts (cfg : Setup) : List Site :=
  (legs (cfg.root.children.map .node)).filterMap (Site.ofLeg? .module cfg.root)

/-- The sites that a run comes to, examples apart. -/
inductive Visits (cfg : Setup) : Site → Prop where
  | start {x} : x ∈ cfg.starts → Visits cfg x
  | next {x y} : Visits cfg x → y ∈ x.nexts cfg.dialect → Visits cfg y
  | later {x y} : Visits cfg x → y ∈ x.laters → Visits cfg y

end Setup

namespace State

def topKind (s : State) : Option ScopeKind := s.stack.head?.bind s.kindOf

/-- What has been put on record, what has been visited and what has been put off is still there. -/
structure Lasts (s t : State) : Prop where
  history : s.history <:+ t.history
  remembers : t.Remembers s
  entry : ∀ i d, s.Entry .functions i d → t.Entry .functions i d

variable {s t u : State}

theorem Lasts.refl (s : State) : s.Lasts s := ⟨suffix_refl _, fun _ h => h, fun _ _ h => h⟩

theorem Lasts.trans (h : s.Lasts t) (k : t.Lasts u) : s.Lasts u :=
  ⟨h.history.trans k.history, fun n hn => k.remembers n (h.remembers n hn),
    fun i d hd => k.entry i d (h.entry i d hd)⟩

theorem Lasts.of_eq (hhistory : t.history = s.history) (hmarks : t.marks = s.marks)
    (hfunctions : t.functions = s.functions) : s.Lasts t where
  history := hhistory ▸ suffix_refl _
  remembers := remembers_of_eq hmarks
  entry := fun _ _ ⟨entries, hentries, hd⟩ => ⟨entries, hfunctions.trans hentries, hd⟩

theorem topKind_of_grows {kind : ScopeKind} (hg : s.Grows t) (hstack : t.stack = s.stack)
    (h : s.topKind = some kind) : t.topKind = some kind := by
  obtain ⟨id, hid, hkind⟩ := Option.bind_eq_some_iff.mp h
  rw [topKind, hstack, hid, Option.bind_some, hg.kindOf_eq id (lt_size_of_kindOf hkind), hkind]

theorem topKind_opened (s : State) (kind : ScopeKind) : (s.opened kind).topKind = some kind :=
  s.kindOf_opened_size kind

theorem Alike.topKind_eq (h : s.Alike t) : t.topKind = s.topKind := by
  rw [topKind, topKind, h.stack_eq]
  exact congrArg _ (funext h.kindOf_eq)

end State

variable {cfg : Setup} {n : Node} {vs : List Value} {s t : State}

theorem Course.lasts (h : Course cfg n vs s t) : s.Lasts t where
  history := by
    obtain ⟨es, hes, -⟩ := h.moves.history fun _ _ _ => trivial
    exact ⟨es, hes.symm⟩
  remembers := h.remembers
  entry := fun i d hd => h.grows.entry .functions i d hd

theorem Course.topKind_eq {kind : ScopeKind} (h : Course cfg n vs s t)
    (hkind : s.topKind = some kind) : t.topKind = some kind :=
  State.topKind_of_grows h.grows h.level.stack_eq hkind

namespace Trail

open Check

variable {cfg : Setup} {visit : Visit} {n : Node} {ps : List Leg} {ds : List Duty}
  {vs : List Value} {s t : State}

variable (hv : ∀ v ∈ vs, Follows cfg n vs (visit v n)) (h : Trail cfg visit n ps ds s t)
  (hps : ∀ p ∈ ps, p.2 ∈ vs)

include hv h hps

theorem course : Course cfg n vs s t := by
  induction h with
  | done => exact .done
  | next _ _ ih ih' =>
    obtain ⟨hfirst, hsecond⟩ := forall_mem_append.mp hps
    exact .next (ih hfirst) (ih' hsecond)
  | act a hof ha => exact .act a hof ha
  | scope kind hk _ hpop ih =>
    refine .scope kind hk (ih fun p hp => ?_) hpop
    obtain ⟨v, hmem, rfl⟩ := mem_map.mp hp
    exact hps (some kind, v) (mem_map_of_mem hmem)
  | guard names _ ih => exact .guard names (ih hps)
  | task task hof _ hd => exact .task task hof hd
  | visit hvisit => exact (hv _ (hps _ mem_cons_self)).ok hvisit

/-- Each value of a trail has been visited, in its scope and at a moment of the rule, and what the
visit did is still there at the end. -/
theorem exists_visit {p : Leg} (hp : p ∈ ps) :
    ∃ r u, visit p.2 n r = .ok () u ∧ (∀ x, Cut cfg n vs r x → Cut cfg n vs s x) ∧
      (∀ kind, s.topKind = some kind → r.topKind = some (p.1.getD kind)) ∧ u.Lasts t := by
  induction h generalizing p with
  | done => cases hp
  | next hfirst hsecond ih ih' =>
    obtain ⟨hps₁, hps₂⟩ := forall_mem_append.mp hps
    have hcourse := hfirst.course hv hps₁
    rcases mem_append.mp hp with hp | hp
    · obtain ⟨r, u, hvisit, hcut, htop, hlasts⟩ := ih hps₁ hp
      exact ⟨r, u, hvisit, hcut, htop, hlasts.trans (hsecond.course hv hps₂).lasts⟩
    · obtain ⟨r, u, hvisit, hcut, htop, hlasts⟩ := ih' hps₂ hp
      exact ⟨r, u, hvisit, fun x hx => .next hcourse (hcut x hx),
        fun kind hkind => htop kind (hcourse.topKind_eq hkind), hlasts⟩
  | act => cases hp
  | scope own hk _ hpop ih =>
    obtain ⟨v, hmem, rfl⟩ := mem_map.mp hp
    have hinner : ∀ q ∈ legs _, q.2 ∈ vs := fun q hq => by
      obtain ⟨w, hw, rfl⟩ := mem_map.mp hq
      exact hps (some own, w) (mem_map_of_mem hw)
    obtain ⟨r, u, hvisit, hcut, htop, hlasts⟩ := ih hinner (mem_map_of_mem hmem)
    obtain ⟨id, rest, -, rfl⟩ := popScope_eq_ok hpop
    exact ⟨r, u, hvisit, fun x hx => .scope own hk (hcut x hx),
      fun _ _ => htop own (State.topKind_opened _ own), hlasts.trans (.of_eq rfl rfl rfl)⟩
  | guard names _ ih =>
    obtain ⟨r, u, hvisit, hcut, htop, hlasts⟩ := ih hps hp
    exact ⟨r, u, hvisit, fun x hx => .guard names (hcut x hx), htop,
      hlasts.trans (.of_eq rfl rfl rfl)⟩
  | task => cases hp
  | @visit v s t hvisit =>
    obtain rfl := mem_singleton.mp hp
    exact ⟨s, t, hvisit, fun _ hx => hx, fun _ hkind => hkind, .refl t⟩

theorem exists_entry {duty : Duty} (hd : duty ∈ ds) :
    ∃ i d, t.Entry .functions i d ∧ ¬ s.Entry .functions i d ∧ d.task.duty? = some duty := by
  induction h with
  | done | act | visit => cases hd
  | next hfirst hsecond ih ih' =>
    obtain ⟨hps₁, hps₂⟩ := forall_mem_append.mp hps
    rcases mem_append.mp hd with hd | hd
    · obtain ⟨i, d, hentry, hnew, hduty⟩ := ih hps₁ hd
      exact ⟨i, d, (hsecond.course hv hps₂).lasts.entry i d hentry, hnew, hduty⟩
    · obtain ⟨i, d, hentry, hnew, hduty⟩ := ih' hps₂ hd
      have hlasts := (hfirst.course hv hps₁).lasts
      exact ⟨i, d, hentry, fun hold => hnew (hlasts.entry i d hold), hduty⟩
  | scope own hk _ hpop ih =>
    obtain ⟨id, rest, -, rfl⟩ := popScope_eq_ok hpop
    refine ih (fun p hp => ?_) hd
    obtain ⟨v, hmem, rfl⟩ := mem_map.mp hp
    exact hps (some own, v) (mem_map_of_mem hmem)
  | guard names _ ih => exact ih hps hd
  | task task _ hduty hdefer =>
    obtain rfl := mem_singleton.mp hd
    obtain ⟨entries, hq, rfl⟩ := defer_eq_ok hdefer
    refine ⟨entries.size, _, (State.entry_withTask hq).mpr (.inr ⟨rfl, rfl, rfl⟩), ?_, hduty⟩
    rintro ⟨others, hothers, hget⟩
    cases hq.symm.trans hothers
    simp at hget

end Trail

section Strokes

variable {cfg : Setup} {s t : State}

theorem State.Alike.lasts (h : s.Alike t) {es : List Event} (hes : t.history = es ++ s.history) :
    s.Lasts t :=
  ⟨⟨es, hes.symm⟩, State.remembers_of_eq h.marks_eq, fun i d hd => h.grows.entry .functions i d hd⟩

theorem State.Says.lasts {kinds : List Kind} (h : s.Says kinds t) : s.Lasts t := by
  obtain ⟨es, hes, -⟩ := h.notes
  exact h.alike.lasts hes

theorem State.Still.lasts (h : s.Still t) : s.Lasts t := by
  obtain ⟨es, hes, -⟩ := h.notes
  exact h.toAlike.lasts hes

theorem Examples.lasts (h : Examples cfg s t) : s.Lasts t :=
  h.induces .refl .trans (·.lasts) (fun _ _ _ => .of_eq rfl rfl rfl) Course.lasts
    fun _ _ => .of_eq rfl rfl rfl

theorem State.lasts_parameters {i : Nat} {d : Deferred} {names : List Datum} {r : State}
    (h : Check.bindParameters cfg n names ((s.resumed .functions i d).opened .function) =
      .ok () r) : s.Lasts r := by
  obtain ⟨es, hes, -⟩ := (moves_parameters.ok h).history fun _ _ _ => trivial
  have halike := (Check.mild_bindParameters cfg n names).ok h
  refine ⟨⟨es, hes.symm⟩, State.remembers_of_eq halike.marks_eq, fun j e he => ?_⟩
  exact (State.grows_parameters halike).entry .functions j e he

theorem State.lasts_finished {u v : State} (hfinish : Check.finishBody cfg n s = .ok () u)
    (hpop : Check.popScope u = .ok () v) : s.Lasts v := by
  obtain ⟨top, rest, entries, -, -, rfl⟩ := Check.finishBody_eq_ok hfinish
  obtain ⟨id, rest, -, rfl⟩ := Check.popScope_eq_ok hpop
  exact ⟨suffix_cons _ _, fun _ h => h, fun _ _ h => h⟩

theorem Stroke.lasts (h : Stroke cfg .functions s t) : s.Lasts t := by
  cases h with
  | body _ _ hparameters hcourse hfinish hpop =>
    exact ((State.lasts_parameters hparameters).trans hcourse.lasts).trans
      (State.lasts_finished hfinish hpop)
  | @doctests u _ i d _ h hpop =>
    obtain ⟨id, rest, -, rfl⟩ := Check.popScope_eq_ok hpop
    have hopened : s.Lasts ((s.resumed .functions i d).opened .function) := .of_eq rfl rfl rfl
    exact (hopened.trans h.lasts).trans (.of_eq rfl rfl rfl)
  | idle => exact .of_eq rfl rfl rfl
  | @verdict _ i d _ _ h =>
    have hresumed : s.Lasts (s.resumed .functions i d) := .of_eq rfl rfl rfl
    exact hresumed.trans h.lasts

theorem Strokes.lasts (h : Strokes cfg .functions s t) : s.Lasts t := by
  induction h with
  | refl => exact .refl _
  | tail _ h ih => exact ih.trans h.lasts

end Strokes

/-- A moment of a run: between two of its parts, or within one. -/
def Setup.Reaches (cfg : Setup) (next : Nat) (s : State) : Prop :=
  ∃ r, Run cfg next r ∧ StrokeCut cfg r s

namespace Check

/-- The node of the site is handled from `r` to `u` at a moment of the run, the depth aside, and what
has been done by then is still there in `t`. -/
structure Handles (cfg : Setup) (next : Nat) (t : State) (x : Site) (fuel : Nat) (r u : State) :
    Prop where
  moment : ∀ y, Cut cfg x.node (x.node.handed cfg.dialect) r y →
    ∃ depth, cfg.Reaches next { y with depth }
  topKind : r.topKind = some x.scope
  parent : r.parent? x.node = some x.parent
  handled : handleNode cfg (visitWithin cfg fuel) x.node r = .ok () u
  lasts : u.Lasts t

variable {cfg : Setup} {next : Nat} {s t : State} {fuel : Nat} {x y : Site} {r u : State}

theorem parent?_entered (s : State) (m n : Node) : (s.entered m n).parent? m = some n := by
  simp [State.parent?, State.mark?, State.entered, State.lineage]

theorem follows_visitWithin (fuel : Nat) {v : Value} (hmem : v ∈ vs) :
    Follows cfg n vs (visitWithin cfg fuel v n) := by
  rw [← visitUntilWithin_never]
  exact follows_visitUntilWithin _ fuel hmem

/-- The parts of the visit of a node. -/
theorem visitWithin_eq_ok {m : Node} (h : visitWithin cfg fuel (.node m) n s = .ok () t) :
    ∃ fuel' r u, fuel = fuel' + 1 ∧ enterNode cfg m n s = .ok () r ∧
      handleNode cfg (visitWithin cfg fuel') m r = .ok () u ∧ u.Lasts t ∧
      ∃ trace, t = { u.risen with trace := trace } := by
  cases fuel with
  | zero => cases h
  | succ fuel =>
    obtain ⟨_, r, henter, h⟩ := bind_apply_eq_ok.mp h
    obtain ⟨_, t₁, hrise, htrace⟩ := bind_apply_eq_ok.mp h
    obtain ⟨u, hhandle, rfl⟩ := thenRise_eq_ok hrise
    have hend := (told_traceLine ("end " ++ m.kind)).ok htrace
    have hrisen : u.Lasts u.risen := .of_eq rfl rfl rfl
    exact ⟨fuel, r, u, rfl, henter, hhandle, hrisen.trans hend.lasts, traceLine_frame htrace⟩

/-- The visit of a node has handled it. -/
theorem exists_handles_of_visit (hvisit : visitWithin cfg fuel (.node x.node) x.parent r = .ok () u)
    (hmoment : ∀ y, Cut cfg x.parent vs r y → ∃ depth, cfg.Reaches next { y with depth })
    (hmem : .node x.node ∈ vs) (htop : r.topKind = some x.scope) (hlasts : u.Lasts t) :
    ∃ fuel' r' u', Handles cfg next t x fuel' r' u' := by
  obtain ⟨fuel', r₁, u₁, -, henter, hhandle, hend, -⟩ := visitWithin_eq_ok hvisit
  have hcut (y : State) (hy : Cut cfg x.node (x.node.handed cfg.dialect) r₁ y) :
      ∃ depth, cfg.Reaches next { y with depth } := by
    obtain ⟨depth, hreaches⟩ := hmoment y.risen (.node x.node hmem henter hy)
    exact ⟨depth, hreaches⟩
  obtain ⟨w, hstill, rfl⟩ := enterNode_eq_ok henter
  refine ⟨fuel', _, u₁, hcut, ?_, parent?_entered w x.node x.parent, hhandle, hend.trans hlasts⟩
  exact hstill.toAlike.topKind_eq.trans htop

theorem Handles.of_nexts (h : Handles cfg next t x fuel r u) (hy : y ∈ x.nexts cfg.dialect) :
    ∃ fuel' r' u', Handles cfg next t y fuel' r' u' := by
  obtain ⟨leg, hleg, hsite⟩ := mem_filterMap.mp hy
  obtain ⟨hscope, hparent, hnode⟩ := Site.ofLeg?_eq_some.mp hsite
  have hfollows : ∀ v ∈ x.node.handed cfg.dialect, Follows cfg x.node
      (x.node.handed cfg.dialect) (visitWithin cfg fuel v x.node) :=
    fun v hv => follows_visitWithin fuel hv
  have hhanded : ∀ p ∈ x.node.taken cfg.dialect, p.2 ∈ x.node.handed cfg.dialect :=
    fun p hp => NodeOf.mem_handed_of_taken hp
  obtain ⟨r', u', hvisit, hcut, htop, hlasts⟩ :=
    (trails_handleNode r () u h.handled).exists_visit hfollows hhanded hleg
  have htop := htop x.scope h.topKind
  have hmem := hhanded leg hleg
  rw [hnode] at hvisit hmem
  rw [← hparent] at hvisit hmem hcut
  rw [← hscope] at htop
  exact exists_handles_of_visit hvisit (fun z hz => h.moment z (hparent ▸ hcut z hz)) hmem htop
    (hlasts.trans h.lasts)

/-- The tasks before number `k` have been taken up, and what they did is still there. -/
structure Advanced (cfg : Setup) (next k : Nat) (t : State) : Prop where
  run : Run cfg next t
  taken : ∀ i d, t.Entry .functions i d → i < k → ∃ r u, Run cfg next r ∧ r.Entry .functions i d ∧
    runTask cfg (visit cfg) d.task (r.resumed .functions i d) = .ok () u ∧ u.Lasts t

theorem Advanced.runTask {k : Nat} {e : Deferred} (h : Advanced cfg next k s)
    (he : s.Entry .functions k e)
    (htask : Check.runTask cfg (visit cfg) e.task (s.resumed .functions k e) = .ok () t) :
    Advanced cfg next (k + 1) t := by
  have hstrokes := strokes_of_task he htask
  refine ⟨h.run.strokes hstrokes, fun i d hd hi => ?_⟩
  have hold := entry_of_runTask he htask (Nat.le_of_lt_succ hi) hd
  rcases Nat.lt_or_ge i k with hlt | hge
  · obtain ⟨r, u, hr, hentry, hrun, hlasts⟩ := h.taken i d hold hlt
    exact ⟨r, u, hr, hentry, hrun, hlasts.trans hstrokes.lasts⟩
  · obtain rfl := Nat.le_antisymm (Nat.le_of_lt_succ hi) hge
    obtain rfl := hold.unique he
    exact ⟨s, t, h.run, hold, htask, .refl t⟩

/-- When the queue has been gone through, each of its tasks has been taken up. -/
theorem exists_task_of_explore (h : explore cfg (State.initial next) = .ok () t) {i : Nat}
    {d : Deferred} (hd : t.Entry .functions i d) : ∃ r u, Run cfg next r ∧ r.Entry .functions i d ∧
      runTask cfg (visit cfg) d.task (r.resumed .functions i d) = .ok () u ∧ u.Lasts t := by
  obtain ⟨k, hk, hnone⟩ := explore_preserves
    (fun _ _ _ _ (h : Advanced cfg next _ _) he htask => h.runTask he htask)
    (fun s hwalk => ⟨.walk (course_of_walk hwalk), by simp⟩) h
  refine hk.taken i d hd (Nat.lt_of_not_le fun hle => ?_)
  exact not_entry_of_drop hnone hle hd

theorem trails_visitBody {visit : Visit} :
    Trails cfg visit n (legs n.deferred) [] (visitBody visit n) := by
  refine trails_lift_bind fun body hbody => ?_
  unfold NodeOf.deferred
  rw [hbody]
  cases body with
  | list items => exact trails_visitAll items
  | _ => exact fun _ _ _ h => .visit h

private theorem exists_handles_of_trail {kind : ScopeKind} {ds : List Duty}
    (h : Trail cfg (visit cfg) n (legs vs) ds r u)
    (hmoment : ∀ y, Cut cfg n vs r y → ∃ depth, cfg.Reaches next { y with depth })
    (htop : r.topKind = some kind) (hlasts : u.Lasts t)
    (hy : y ∈ (legs vs).filterMap (Site.ofLeg? kind n)) :
    ∃ fuel r' u', Handles cfg next t y fuel r' u' := by
  obtain ⟨leg, hleg, hsite⟩ := mem_filterMap.mp hy
  obtain ⟨hscope, hparent, hnode⟩ := Site.ofLeg?_eq_some.mp hsite
  obtain ⟨v, hmem, rfl⟩ := mem_map.mp hleg
  have hlegs : ∀ p ∈ legs vs, p.2 ∈ vs := fun p hp => by
    obtain ⟨w, hw, rfl⟩ := mem_map.mp hp
    exact hw
  obtain ⟨r', u', hvisit, hcut, htop', hlasts'⟩ :=
    h.exists_visit (fun _ hv => follows_visit hv) hlegs hleg
  have htop' := htop' kind htop
  dsimp only at hnode
  rw [hnode] at hvisit hmem
  rw [← hparent] at hvisit hcut hmoment
  rw [← hscope] at htop'
  exact exists_handles_of_visit hvisit (fun z hz => hmoment z (hcut z hz)) hmem htop'
    (hlasts'.trans hlasts)

theorem Handles.of_laters (h : Handles cfg next t x fuel r u)
    (hqueue : ∀ i d, t.Entry .functions i d → ∃ r u, Run cfg next r ∧ r.Entry .functions i d ∧
      runTask cfg (visit cfg) d.task (r.resumed .functions i d) = .ok () u ∧ u.Lasts t)
    (hy : y ∈ x.laters) : ∃ fuel' r' u', Handles cfg next t y fuel' r' u' := by
  unfold Site.laters at hy
  split at hy
  swap
  · cases hy
  rename_i hfunction
  have hduty : .body x.node ∈ x.node.duties cfg := by
    simp only [NodeOf.isFunction, Bool.or_eq_true, beq_iff_eq] at hfunction
    rcases hfunction with hrule | hrule <;> simp [NodeOf.duties, hrule, Rule.duties]
  obtain ⟨i, d, hentry, -, htask⟩ := (trails_handleNode r () u h.handled).exists_entry
    (fun _ hv => follows_visitWithin fuel hv) (fun _ hp => NodeOf.mem_handed_of_taken hp) hduty
  obtain ⟨names, hnames⟩ : ∃ names, d.task = .body x.node names := by
    cases hd : d.task with
    | body n names =>
      rw [hd] at htask
      cases htask
      exact ⟨names, rfl⟩
    | _ => simp [hd, Task.duty?] at htask
  obtain ⟨r₀, u₀, hr₀, hentry₀, hrun, hlasts⟩ := hqueue i d (h.lasts.entry i d hentry)
  rw [hnames] at hrun
  obtain ⟨r₂, u₂, v, hparameters, hbody, hfinish, hpop⟩ := runBody_eq_ok hrun
  have htop : r₂.topKind = some .function := by
    rw [((mild_bindParameters cfg x.node names).ok hparameters).topKind_eq]
    exact State.topKind_opened (r₀.resumed .functions i d) .function
  have hmoment (z : State) (hz : Cut cfg x.node x.node.deferred r₂ z) :
      ∃ depth, cfg.Reaches next { z with depth } :=
    ⟨z.depth, r₀, hr₀, .body hentry₀ hnames hparameters hz⟩
  exact exists_handles_of_trail (trails_visitBody r₂ () u₂ hbody) hmoment htop
    ((State.lasts_finished hfinish hpop).trans hlasts) hy

/-- A run that gets through has handled every site that it comes to. -/
theorem exists_handles (h : explore cfg (State.initial next) = .ok () t) (hx : cfg.Visits x) :
    ∃ fuel r u, Handles cfg next t x fuel r u := by
  obtain ⟨_, s, hwalk, hdrain⟩ := bind_apply_eq_ok.mp h
  have hstrokes : Strokes cfg .functions s t :=
    (strokes_drainWith (fun _ _ _ hv => follows_visit hv) .functions s).ok hdrain
  induction hx with
  | start hy =>
    exact exists_handles_of_trail (trails_visitChildren _ () s hwalk)
      (fun z hz => ⟨z.depth, _, .start, .walk hz⟩) rfl hstrokes.lasts hy
  | next _ hy ih =>
    obtain ⟨fuel, r, u, hhandles⟩ := ih
    exact hhandles.of_nexts hy
  | later _ hy ih =>
    obtain ⟨fuel, r, u, hhandles⟩ := ih
    exact hhandles.of_laters (fun _ _ hd => exists_task_of_explore h hd) hy

end Check

end ScopeLint
