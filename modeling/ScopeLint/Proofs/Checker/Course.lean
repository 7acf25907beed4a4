import ScopeLint.Proofs.Checker.Routine

/-! # The course of a visit

Whatever a rule does is made of steps on names and messages, of scopes and guards that it opens and
closes again, of tasks that it puts off, and of visits of the values that its node hands on. Where a
visit fails, it has done a first part of that. -/
namespace ScopeLint

open Check

namespace State

def opened (s : State) (kind : ScopeKind) : State :=
  { s with scopes := s.scopes.push (Scope.empty kind), stack := s.scopes.size :: s.stack }

def guarded (s : State) (names : List Datum) : State :=
  { s with guards := .list names :: s.guards }

def unguarded (s : State) : State := { s with guards := s.guards.tail }

def risen (s : State) : State := { s with depth := s.depth - 1 }

end State

/-- From one state to another by steps below the node `n` that visit values of the list. -/
inductive Course (cfg : Setup) : Node → List Value → State → State → Prop where
  | done {n vs s} : Course cfg n vs s s
  | next {n vs s t u} : Course cfg n vs s t → Course cfg n vs t u → Course cfg n vs s u
  | act {n vs s t} (a : Act) : a.IsOf n ∧ a.UsesTop s → a.run cfg s = .ok () t → Course cfg n vs s t
  | scope {n vs s t u} (kind : ScopeKind) : kind ≠ .module ∧ kind ≠ .function →
      Course cfg n vs (s.opened kind) t → popScope t = .ok () u → Course cfg n vs s u
  | guard {n vs s t} (names : List Datum) :
      Course cfg n vs (s.guarded names) t → Course cfg n vs s t.unguarded
  | task {n vs s t} (task : Task) : task.IsOf n →
      defer .functions task s = .ok () t → Course cfg n vs s t
  | node {n vs s t u v} (m : Node) : .node m ∈ vs → enterNode cfg m n s = .ok () t →
      Course cfg m (m.handed cfg.dialect) t u →
      traceLine cfg ("end " ++ m.kind) u.risen = .ok () v → Course cfg n vs s v

/-- From one state to another by a first part of such steps. -/
inductive Cut (cfg : Setup) : Node → List Value → State → State → Prop where
  | here {n vs s} : Cut cfg n vs s s
  | next {n vs s t u} : Course cfg n vs s t → Cut cfg n vs t u → Cut cfg n vs s u
  | act {n vs s t e} (a : Act) : a.IsOf n ∧ a.UsesTop s → a.run cfg s = .error e t →
      Cut cfg n vs s t
  | scope {n vs s t} (kind : ScopeKind) : kind ≠ .module ∧ kind ≠ .function →
      Cut cfg n vs (s.opened kind) t → Cut cfg n vs s t
  | guard {n vs s t} (names : List Datum) : Cut cfg n vs (s.guarded names) t → Cut cfg n vs s t
  | entry {n vs s t e} (m : Node) : .node m ∈ vs → enterNode cfg m n s = .error e t →
      Cut cfg n vs s t
  | node {n vs s t u} (m : Node) : .node m ∈ vs → enterNode cfg m n s = .ok () t →
      Cut cfg m (m.handed cfg.dialect) t u → Cut cfg n vs s u.risen
  | stray {n vs s t e} (v : Value) : v ∈ vs → v.node? = none → v.isNull = false →
      refuse cfg v s = .error e t → Cut cfg n vs s t

def Ending.course (cfg : Setup) (n : Node) (vs : List Value) : Ending :=
  ⟨Course cfg n vs, Cut cfg n vs, fun _ => .done, fun _ => .here, .next, .next⟩

namespace Check

variable {cfg : Setup} {n : Node} {vs : List Value} {α : Type} {task : Task} {s t : State}
  {e : Fault} {kind : ScopeKind} {act : Check Unit}

abbrev Follows (cfg : Setup) (n : Node) (vs : List Value) (act : Check α) : Prop :=
  Ends (.course cfg n vs) act

theorem follows_act (a : Act) (s : State) (h : a.IsOf n ∧ a.UsesTop s) :
    EndsAt (.course cfg n vs) (a.run cfg) s := by
  rw [EndsAt, Lands]
  cases ha : a.run cfg s with
  | ok u t => exact .act a h ha
  | error e t => exact .act a h ha

theorem defer_eq_error {q : Queue} (h : defer q task s = .error e t) : t = s := by
  simp only [defer, bind_apply, get_apply] at h
  cases hq : s.queue q with
  | some entries =>
    rw [hq] at h
    cases h
  | none =>
    rw [hq] at h
    cases h
    rfl

theorem follows_defer (h : task.IsOf n) : Follows cfg n vs (defer .functions task) := by
  refine ends_of (fun _ _ _ hd => .task task h hd) fun s e t hd => ?_
  obtain rfl := defer_eq_error hd
  exact .here

theorem popScope_eq_error (h : popScope s = .error e t) : t = s := by
  simp only [popScope, bind_apply, get_apply] at h
  cases hs : s.stack with
  | nil =>
    rw [hs] at h
    cases h
    rfl
  | cons id rest =>
    rw [hs] at h
    cases h

theorem inScope_eq_ok (h : inScope kind act s = .ok () t) :
    ∃ u, act (s.opened kind) = .ok () u ∧ popScope u = .ok () t := by
  obtain ⟨_, _, hpush, h⟩ := bind_apply_eq_ok.mp h
  obtain ⟨_, u, hact, hpop⟩ := bind_apply_eq_ok.mp h
  cases hpush
  exact ⟨u, hact, hpop⟩

theorem inScope_eq_error (h : inScope kind act s = .error e t) : act (s.opened kind) = .error e t ∨
      (act (s.opened kind) = .ok () t ∧ popScope t = .error e t) := by
  rcases bind_apply_eq_error.mp h with hpush | ⟨_, _, hpush, h⟩
  · cases hpush
  cases hpush
  rcases bind_apply_eq_error.mp h with hact | ⟨_, u, hact, hpop⟩
  · exact .inl hact
  · obtain rfl := popScope_eq_error hpop
    exact .inr ⟨hact, hpop⟩

theorem follows_scope (hk : kind ≠ .module ∧ kind ≠ .function) (h : Follows cfg n vs act) :
    Follows cfg n vs (inScope kind act) := by
  refine ends_of (fun s _ t hs => ?_) fun s e t hs => ?_
  · obtain ⟨u, hact, hpop⟩ := inScope_eq_ok hs
    exact .scope kind hk (h.ok hact) hpop
  · rcases inScope_eq_error hs with hact | ⟨hact, -⟩
    · exact .scope kind hk (h.fail hact)
    · exact .scope kind hk (.next (h.ok hact) .here)

theorem follows_guard (names : List Datum) (h : Follows cfg n vs act) :
    Follows cfg n vs (underGuard (.list names) act) := by
  intro s
  have hguard : (modify fun s => { s with guards := .list names :: s.guards } : Check Unit) s =
      .ok () (s.guarded names) := rfl
  rw [EndsAt, Lands, underGuard, bind_apply, hguard]
  dsimp only
  rw [bind_apply]
  cases ha : act (s.guarded names) with
  | error e t => exact .guard names (h.fail ha)
  | ok u t => exact .guard names (h.ok ha)

theorem Routine.follows {ks : List ScopeKind} {ps : List Leg} {ds : List Duty} {x : Visit → Check α}
    {xs : Script α} (h : Routine cfg n ks ps ds x xs) {visit : Visit}
    (hv : ∀ v ∈ ps.map (·.2), Follows cfg n vs (visit v n)) : Follows cfg n vs (x visit) := by
  induction h with
  | pure a => exact ends_pure a
  | throw e => exact ends_throw e
  | bind hx _ ihx ihf =>
    rw [List.map_append, List.forall_mem_append] at hv
    exact (ihx hv.1).bind_of fun a ha => (hx.exists_ops ha).elim fun ops hops =>
      ihf a ops hops hv.2
  | act a hof hfrom => exact fun s => follows_act a s ⟨hof, hfrom.usesTop s⟩
  | future b hof _ => exact ends_bindFuture follows_act hof
  | late names _ _ _ ih => exact (ends_reportLate follows_act names).bind fun _ => ih hv
  | visit value => exact hv value (by simp)
  | scope kind hk _ ih =>
    rw [map_legsIn] at hv
    exact follows_scope hk (ih (by rwa [map_legs]))
  | guard names _ _ ih => exact follows_guard names (ih hv)
  | defers task hof _ _ => exact follows_defer hof

section Visits

variable {visit : Visit} (hv : ∀ v ∈ vs, Follows cfg n vs (visit v n))

include hv

theorem follows_visitAll {values : List Value} (h : values ⊆ vs) :
    Follows cfg n vs (visitAll visit n values) :=
  (routine_visitAll values).follows fun v hmem => hv v (h (by simpa using hmem))

theorem follows_visitChildren (h : n.children.map .node ⊆ vs) :
    Follows cfg n vs (visitChildren visit n) :=
  routine_visitChildren.follows fun v hmem => hv v (h (by simpa using hmem))

end Visits

variable {handle : Node → Check Unit} {v : Value}

theorem traceLine_eq_ok (cfg : Setup) (line : String) (s : State) :
    ∃ t, traceLine cfg line s = .ok () t := by
  unfold traceLine
  split
  · exact ⟨_, rfl⟩
  · exact ⟨_, rfl⟩

private theorem follows_visitNode {m : Node} (hmem : .node m ∈ vs)
    (hh : Follows cfg m (m.handed cfg.dialect) (handle m)) :
    Follows cfg n vs (visitOne cfg handle (.node m) n) := by
  intro s
  rw [EndsAt, Lands, visitOne, bind_apply]
  cases he : enterNode cfg m n s with
  | error e t => exact .entry m hmem he
  | ok u t =>
    dsimp only
    rw [bind_apply, thenRise]
    cases hr : handle m t with
    | error e v => exact .node m hmem he (hh.fail hr)
    | ok u v =>
      obtain ⟨z, hz⟩ := traceLine_eq_ok cfg ("end " ++ m.kind) v.risen
      dsimp only
      rw [show { v with depth := v.depth - 1 } = v.risen from rfl, hz]
      exact .node m hmem he (hh.ok hr) hz

theorem refuse_ne_ok (cfg : Setup) (v : Value) (s t : State) : refuse cfg v s ≠ .ok () t := by
  intro h
  obtain ⟨_, t₁, -, h⟩ := bind_apply_eq_ok.mp h
  obtain ⟨_, t₂, -, h⟩ := bind_apply_eq_ok.mp h
  obtain ⟨_, t₃, -, h⟩ := bind_apply_eq_ok.mp h
  cases h

private theorem follows_refuse (hmem : v ∈ vs) (hnode : v.node? = none)
    (hnull : v.isNull = false) : Follows cfg n vs (refuse cfg v) :=
  ends_of (fun s _ t h => absurd h (refuse_ne_ok cfg v s t))
    fun _ _ _ h => .stray v hmem hnode hnull h

/-- The visit of a value that `n` hands on, where the rules for the nodes follow their courses. -/
theorem follows_visitOne (hh : ∀ m, Follows cfg m (m.handed cfg.dialect) (handle m)) (hmem : v ∈ vs) :
    Follows cfg n vs (visitOne cfg handle v n) := by
  cases v with
  | null => exact ends_pure _
  | node m => exact follows_visitNode hmem (hh m)
  | _ => exact follows_refuse hmem rfl rfl

/-- The rule for a node follows a course through what the node hands on. -/
theorem follows_handleNode {below : Visit}
    (hb : ∀ v ∈ n.handed cfg.dialect, Follows cfg n (n.handed cfg.dialect) (below v n)) :
    Follows cfg n (n.handed cfg.dialect) (handleNode cfg below n) :=
  (routine_handleNode cfg n).follows fun v hv => hb v ((n.taken_subperm cfg.dialect).subset hv)

end Check

end ScopeLint
