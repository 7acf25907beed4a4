import ScopeLint.Proofs.Checker.ScriptLegs

/-! # Which steps a script has

The steps of a script are about its own node: it is the node that is stored or deleted, and the source
of what is bound, and work is put off for it. Whether docstrings are looked at makes a difference for
the work on docstrings and for nothing else. -/
namespace ScopeLint

variable {α β : Type} {cfg : Setup} {n : Node}

namespace Script

variable {x : Script α}

def IsFrom (cfg : Setup) (n : Node) (x : Script α) : Prop :=
  ∀ a ops, x = .ok (a, ops) → ∀ op ∈ ops, op.IsFrom cfg n

theorem isFrom_emit (op : Op) (h : op.IsFrom cfg n) : (emit op).IsFrom cfg n := by
  intro a ops hops
  cases hops
  simpa using h

theorem IsFrom.bind {f : α → Script β} (hx : x.IsFrom cfg n)
    (hf : ∀ a ops, x = .ok (a, ops) → (f a).IsFrom cfg n) : (x >>= f).IsFrom cfg n := by
  intro b ops h op hop
  obtain ⟨a, first, rest, ha, hb, rfl⟩ := bind_eq_ok.mp h
  exact (List.mem_append.mp hop).elim (hx a first ha op) (hf a first ha b rest hb op)

theorem isFrom_late {names : Except Fault (List Value)} (hlate : n.isFutureImport = true)
    (h : x.IsFrom cfg n) :
    (do emit (.late (← lift names)); x : Script α).IsFrom cfg n := by
  refine IsFrom.bind (fun vs ops hvs => ?_) fun vs _ _ => (isFrom_emit (.late vs) hlate).bind ?_
  · obtain ⟨-, rfl⟩ := lift_eq_ok.mp hvs
    simp
  · exact fun _ _ _ => h

end Script

theorem Check.Routine.isFrom {ks : List ScopeKind} {ps : List Leg} {ds : List Duty}
    {x : Visit → Check α} {xs : Script α} (h : Routine cfg n ks ps ds x xs) : xs.IsFrom cfg n := by
  induction h with
  | pure a =>
    intro b ops hops
    cases hops
    simp
  | throw e => exact fun _ _ hops => nomatch hops
  | bind _ _ ihx ihf => exact ihx.bind ihf
  | act a _ hfrom => exact Script.isFrom_emit (.act a) hfrom
  | future b _ hnew => exact Script.isFrom_emit (.future b) hnew
  | late names hlate _ _ ih => exact Script.isFrom_late hlate ih
  | visit value => exact Script.isFrom_emit (.visit value) trivial
  | scope kind hkind _ ih =>
    exact (Script.isFrom_emit (.opens kind) hkind).bind fun _ _ _ => ih.bind fun _ _ _ =>
      Script.isFrom_emit .closes trivial
  | guard names hrule _ ih =>
    exact (Script.isFrom_emit (.guards names) hrule).bind fun _ _ _ => ih.bind fun _ _ _ =>
      Script.isFrom_emit .unguards hrule
  | defers task _ hfrom _ => exact Script.isFrom_emit (.defers task) hfrom

theorem NodeOf.isFrom_script (cfg : Setup) (n : Node) : (n.script cfg).IsFrom cfg n :=
  (Check.routine_handleNode cfg n).isFrom

/-- The check that looks at docstrings, or the one that does not. -/
def Setup.withDoctests (cfg : Setup) (on : Bool) : Setup := { cfg with doctests := on }

def Op.isDoctests : Op → Bool
  | .defers (.doctests _) => true
  | _ => false

namespace Script

variable {x y : Script Unit}

/-- The steps of the second script are those of the first, the work on docstrings aside. -/
def Drops (x y : Script α) : Prop :=
  ∀ a ops, x = .ok (a, ops) → y = .ok (a, ops.filter (!·.isDoctests))

theorem Drops.bind {x y : Script α} {f g : α → Script β} (hx : x.Drops y)
    (hf : ∀ a, (f a).Drops (g a)) : (x >>= f).Drops (y >>= g) := by
  intro b ops h
  obtain ⟨a, first, rest, ha, hb, rfl⟩ := bind_eq_ok.mp h
  refine bind_eq_ok.mpr ⟨a, _, _, hx a first ha, hf a b rest hb, ?_⟩
  rw [List.filter_append]

theorem IsFrom.drops {x : Script α} (h : x.IsFrom (cfg.withDoctests false) n) : x.Drops x := by
  intro a ops hops
  rw [hops, List.filter_eq_self.mpr]
  intro op hop
  have hfrom := h a ops hops op hop
  match op with
  | .defers (.doctests _) => exact Bool.noConfusion hfrom.2
  | .defers (.body _ _) | .defers .assignments | .defers (.returns _) => rfl
  | .act _ | .late _ | .future _ | .visit _ | .opens _ | .closes | .guards _ | .unguards => rfl

theorem drops_doctests :
    (if (cfg.withDoctests true).doctests then emit (.defers (.doctests n)) else pure ()).Drops
      (if (cfg.withDoctests false).doctests then emit (.defers (.doctests n)) else pure ()) := by
  intro a ops h
  cases h
  rfl

theorem drops_doctests_before (h : x.Drops x) :
    (if (cfg.withDoctests true).doctests then emit (.defers (.doctests n)) >>= fun _ => x else x).Drops
      (if (cfg.withDoctests false).doctests then emit (.defers (.doctests n)) >>= fun _ => x
        else x) := by
  intro a ops hops
  obtain ⟨_, first, rest, hfirst, hrest, rfl⟩ := bind_eq_ok.mp hops
  cases hfirst
  exact h a rest hrest

theorem Drops.before {rest rest' : Unit → Script α} {p : Prop} {_ : Decidable p} (h : x.Drops y)
    (hrest : ∀ u, (rest u).Drops (rest' u)) :
    (if p then x >>= rest else rest ()).Drops (if p then y >>= rest' else rest' ()) := by
  split
  · exact h.bind hrest
  · exact hrest ()

theorem drops_inScope {kind : ScopeKind} (h : x.Drops y) :
    (inScope kind x).Drops (inScope kind y) := by
  have hemit (op : Op) (hop : op.isDoctests = false) : (emit op).Drops (emit op) := by
    intro a ops hops
    cases hops
    rw [List.filter_cons, hop]
    rfl
  exact (hemit _ rfl).bind fun _ => h.bind fun _ => hemit _ rfl

end Script

/-- Without a look at docstrings the rules do the same but for the work on docstrings. -/
theorem NodeOf.drops_script (cfg : Setup) (n : Node) :
    (n.script (cfg.withDoctests true)).Drops (n.script (cfg.withDoctests false)) := by
  have hplain {α : Type} {x : Script α} (hx : x.IsFrom (cfg.withDoctests false) n) : x.Drops x :=
    hx.drops
  have hlift {α β : Type} {x : Except Fault α} {f g : α → Script β}
      (h : ∀ a, x = .ok a → (f a).Drops (g a)) : (Script.lift x >>= f).Drops (Script.lift x >>= g) := by
    cases x with
    | error e => exact fun _ _ hops => nomatch hops
    | ok a =>
      intro b ops hops
      obtain ⟨_, _, rest, ha, hb, rfl⟩ := Script.bind_eq_ok.mp hops
      cases ha
      exact Script.bind_eq_ok.mpr ⟨a, [], _, rfl, h a rfl b rest hb, rfl⟩
  have hitems (name : String) : (Script.visitItems n name).Drops (Script.visitItems n name) :=
    hplain (Check.routine_visitItems name).isFrom
  have hbind {b : Binding} (hb : b.IsNew n) : (Script.emit (.act (.bind n b true))).Drops
      (Script.emit (.act (.bind n b true))) :=
    hplain (Script.isFrom_emit (.act (.bind n b true)) ⟨rfl, hb⟩)
  refine hlift fun rule h => ?_
  have hrule := Check.of?_eq_some h
  have hsame (heq : Script.ofRule (cfg.withDoctests true) n rule =
      Script.ofRule (cfg.withDoctests false) n rule) :
      (Script.ofRule (cfg.withDoctests true) n rule).Drops
        (Script.ofRule (cfg.withDoctests false) n rule) := by
    rw [heq]
    exact hplain (Check.routine_applyRule hrule).isFrom
  cases rule with
  | functionDef =>
    have hfunction : n.isFunction = true := by simp [NodeOf.isFunction, hrule]
    have hlambda := @Check.routine_ruleLambda (cfg.withDoctests false) n hfunction
    refine (hitems _).bind fun _ => hlift fun name _ => hlift fun signature _ => ?_
    exact (hbind ⟨rfl, rfl⟩).bind fun _ => (hplain hlambda.isFrom).bind fun _ =>
      Script.drops_doctests
  | classDef =>
    refine (hitems _).bind fun _ => (hitems _).bind fun _ => (hitems _).before fun _ => ?_
    refine (Script.drops_inScope (Script.drops_doctests_before (hitems _))).bind fun _ => ?_
    exact hlift fun name _ => hbind ⟨rfl, rfl⟩
  | _ => exact hsame rfl

end ScopeLint
