import ScopeLint.Proofs.Checker.Ledger

/-! # What a rule does, in full

A course tells what a rule may visit. The trail of a rule that succeeds tells what it has visited, in
which order and in which scopes, and what it has put off. -/
namespace ScopeLint

/-- From one state to another by steps of the rule for `n` that visit these values and put this work
off. -/
inductive Trail (cfg : Setup) (visit : Check.Visit) (n : Node) :
    List Leg → List Duty → State → State → Prop where
  | done {s} : Trail cfg visit n [] [] s s
  | next {ps qs ds es s t u} : Trail cfg visit n ps ds s t → Trail cfg visit n qs es t u →
      Trail cfg visit n (ps ++ qs) (ds ++ es) s u
  | act {s t} (a : Act) : a.IsOf n ∧ a.UsesTop s → a.run cfg s = .ok () t →
      Trail cfg visit n [] [] s t
  | scope {vs ds s t u} (kind : ScopeKind) : kind ≠ .module ∧ kind ≠ .function →
      Trail cfg visit n (legs vs) ds (s.opened kind) t → Check.popScope t = .ok () u →
      Trail cfg visit n (legsIn kind vs) ds s u
  | guard {ps ds s t} (names : List Datum) : Trail cfg visit n ps ds (s.guarded names) t →
      Trail cfg visit n ps ds s t.unguarded
  | task {duty s t} (task : Task) : task.IsOf n → task.duty? = some duty →
      Check.defer .functions task s = .ok () t → Trail cfg visit n [] [duty] s t
  | visit {v s t} : visit v n s = .ok () t → Trail cfg visit n [(none, v)] [] s t

/-- The end of a step of the rule for `n` that visits nothing and puts nothing off. -/
def Ending.silent (cfg : Setup) (visit : Check.Visit) (n : Node) : Ending :=
  ⟨Trail cfg visit n [] [], fun _ _ => True, fun _ => .done, fun _ => trivial, .next,
    fun _ _ => trivial⟩

namespace Check

variable {cfg : Setup} {visit : Visit} {n : Node} {α : Type} {ks : List ScopeKind} {ps : List Leg}
  {ds : List Duty}

/-- A step of the rule for `n` that visits these values and puts this work off when it succeeds. -/
def Trails (cfg : Setup) (visit : Visit) (n : Node) (ps : List Leg) (ds : List Duty)
    (act : Check α) : Prop :=
  ∀ s a t, act s = .ok a t → Trail cfg visit n ps ds s t

theorem silent_act (a : Act) (s : State) (h : a.IsOf n ∧ a.UsesTop s) :
    EndsAt (.silent cfg visit n) (a.run cfg) s := by
  rw [EndsAt, Lands]
  cases ha : a.run cfg s with
  | ok u t => exact .act a h ha
  | error e t => trivial

theorem trails_lift_bind {β : Type} {x : Except Fault α} {f : α → Check β}
    (hf : ∀ a, x = .ok a → Trails cfg visit n ps ds (f a)) :
    Trails cfg visit n ps ds (lift x >>= f) := by
  intro s b t h
  obtain ⟨a, ha, hb⟩ := lift_bind_eq_ok.mp h
  exact hf a ha s b t hb

theorem Routine.trails {x : Visit → Check α} {xs : Script α} (h : Routine cfg n ks ps ds x xs) :
    Trails cfg visit n ps ds (x visit) := by
  induction h with
  | pure a =>
    intro s b t ht
    cases ht
    exact .done
  | throw e => exact fun _ _ _ ht => nomatch ht
  | bind hx _ ihx ihf =>
    intro s b u hu
    obtain ⟨a, t, ha, hb⟩ := bind_apply_eq_ok.mp hu
    obtain ⟨ops, hops⟩ := hx.exists_ops ⟨s, t, ha⟩
    exact .next (ihx s a t ha) (ihf a ops hops t b u hb)
  | act a hof hfrom => exact fun s _ _ ht => .act a ⟨hof, hfrom.usesTop s⟩ ht
  | future b hof _ => exact fun _ _ _ ht => (ends_bindFuture silent_act hof).ok ht
  | late names _ _ _ ih =>
    intro s b u hu
    obtain ⟨_, t, hlate, hb⟩ := bind_apply_eq_ok.mp hu
    exact .next ((ends_reportLate silent_act names).ok hlate) (ih t b u hb)
  | visit value => exact fun _ _ _ ht => .visit ht
  | scope kind hk _ ih =>
    intro s _ t ht
    obtain ⟨u, hact, hpop⟩ := inScope_eq_ok ht
    exact .scope kind hk (ih _ _ _ hact) hpop
  | guard names _ _ ih =>
    intro s _ t ht
    obtain ⟨_, t₁, hguard, ht⟩ := bind_apply_eq_ok.mp ht
    obtain ⟨_, t₂, hact, hend⟩ := bind_apply_eq_ok.mp ht
    cases hguard
    cases hend
    exact .guard names (ih _ _ _ hact)
  | defers task hof _ hduty => exact fun _ _ _ ht => .task task hof hduty ht

theorem trails_visitAll (items : List Value) :
    Trails cfg visit n (legs items) [] (visitAll visit n items) :=
  (routine_visitAll items).trails

theorem trails_visitChildren :
    Trails cfg visit n (legs (n.children.map .node)) [] (visitChildren visit n) :=
  routine_visitChildren.trails

theorem trails_handleNode {below : Visit} :
    Trails cfg below n (n.taken cfg.dialect) (n.duties cfg) (handleNode cfg below n) :=
  (routine_handleNode cfg n).trails

end Check

end ScopeLint
