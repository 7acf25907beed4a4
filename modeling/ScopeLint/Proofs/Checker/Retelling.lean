import ScopeLint.Checker.Run
import ScopeLint.Proofs.Checker.Routine

/-! # Two walks with different messages

Scopes, guards, nodes and put-off tasks are nothing to messages either. So the visit of a tree that gets
through has its like where something else is ignored. -/
namespace ScopeLint

namespace Check

variable {tell : Retelling}

section State

variable {x y : Check Unit}

theorem mirrors_set {s t : State} (h : t = s.retold tell) :
    Mirrors tell (set s) (set t : Check PUnit) := by
  intro r a u hr
  cases hr
  rw [set_apply, h]

theorem mirrors_popScope : Mirrors tell popScope popScope := by
  refine mirrors_get fun s => ?_
  simp only [State.retold_stack, State.retold_dead]
  split
  · exact mirrors_throw _ _
  · exact mirrors_set rfl

theorem mirrors_inScope (kind : ScopeKind) (h : Mirrors tell x y) :
    Mirrors tell (inScope kind x) (inScope kind y) := by
  have hpush : Mirrors tell (pushScope kind) (pushScope kind) := mirrors_modify fun _ => rfl
  exact hpush.bind fun _ => h.bind fun _ => mirrors_popScope

theorem mirrors_defer (q : Queue) (task : Task) : Mirrors tell (defer q task) (defer q task) := by
  refine mirrors_get fun s => ?_
  simp only [State.retold_queue, State.retold_stack, State.retold_shift]
  split
  · exact mirrors_set (by cases q <;> rfl)
  · exact mirrors_throw _ _

theorem mirrors_thenRise (h : Mirrors tell x y) : Mirrors tell (thenRise x) (thenRise y) := by
  intro s a t hs
  rw [thenRise] at hs
  cases hx : x s with
  | error e u =>
    rw [hx] at hs
    cases hs
  | ok b u =>
    rw [hx] at hs
    cases hs
    rw [thenRise, h s _ u hx]
    rfl

end State

section Visits

variable {v w : Visit}

/-- Every visit that gets through has its like. -/
def MirrorsVisit (tell : Retelling) (v w : Visit) : Prop :=
  ∀ value parent, Mirrors tell (v value parent) (w value parent)

theorem mirrors_visitAll (hv : MirrorsVisit tell v w) (n : Node) (values : List Value) :
    Mirrors tell (visitAll v n values) (visitAll w n values) :=
  mirrors_forM values fun value => hv value n

theorem mirrors_visitChildren (hv : MirrorsVisit tell v w) (n : Node) :
    Mirrors tell (visitChildren v n) (visitChildren w n) :=
  mirrors_forM n.children fun c => hv (.node c) n

end Visits

section Reports

variable {cfg : Setup} {kinds lines : Datum} {v w : Visit} (h : Retells tell cfg kinds lines [])

include h

theorem mirrors_report (k : Kind) (subject : Value) (args : List Datum) :
    Mirrors tell (report cfg k subject args) (report (cfg.less kinds lines) k subject args) :=
  (told_anyReport k subject args).mirrors h

theorem mirrors_bind (n : Node) (b : Binding) (reportsHidden : Bool) :
    Mirrors tell (Check.bind cfg n b reportsHidden)
      (Check.bind (cfg.less kinds lines) n b reportsHidden) :=
  (told_bind n b reportsHidden).mirrors h

theorem mirrors_traceLine (line : String) :
    Mirrors tell (traceLine cfg line) (traceLine (cfg.less kinds lines) line) :=
  (told_traceLine line).mirrors h

theorem mirrors_closeFutures (v : Value) : Mirrors tell (closeFutures v) (closeFutures v) :=
  (told_closeFutures v).mirrors h

theorem mirrors_enterNode (n parent : Node) :
    Mirrors tell (enterNode cfg n parent) (enterNode (cfg.less kinds lines) n parent) := by
  refine ((told_shiftNode n).mirrors h).bind fun _ => (mirrors_traceLine h _).bind fun _ => ?_
  refine (mirrors_closeFutures h _).bind fun _ =>
    (mirrors_modify ?_).bind fun _ => mirrors_modify ?_
  · exact fun _ => rfl
  · exact fun _ => rfl

theorem mirrors_refuse (value : Value) :
    Mirrors tell (refuse cfg value) (refuse (cfg.less kinds lines) value) := by
  refine (mirrors_traceLine h _).bind fun _ => (mirrors_closeFutures h _).bind fun _ => ?_
  refine (mirrors_modify ?_).bind fun _ => mirrors_throw _ _
  exact fun _ => rfl

theorem mirrors_op (hv : MirrorsVisit tell v w) (n : Node)
    (op : Op) : Mirrors tell (op.run cfg v n) (op.run (cfg.less kinds lines) w n) := by
  cases op with
  | act a => exact a.run_told.mirrors h
  | late names =>
    refine mirrors_get fun s => mirrors_ite ?_ (mirrors_pure _)
    exact (mirrors_mapM names mirrors_datum).bind fun _ => mirrors_report h _ _ _
  | future b => exact mirrors_current.bind fun _ => mirrors_bind h n _ true
  | visit value => exact hv value n
  | opens kind => exact mirrors_modify fun _ => rfl
  | closes => exact mirrors_popScope
  | guards names => exact mirrors_modify fun _ => rfl
  | unguards => exact mirrors_modify fun _ => rfl
  | defers task => exact mirrors_defer _ _

theorem mirrors_handleNode (hv : MirrorsVisit tell v w)
    (n : Node) : Mirrors tell (handleNode cfg v n) (handleNode (cfg.less kinds lines) w n) := by
  intro s _ t ht
  obtain ⟨ops, hops, hrun⟩ := handleNode_eq_ok.mp ht
  exact handleNode_eq_ok.mpr ⟨ops, hops, mirrors_forM ops (mirrors_op h hv n) s () t hrun⟩

theorem mirrors_visitWithin (fuel : Nat) :
    MirrorsVisit tell (visitWithin cfg fuel) (visitWithin (cfg.less kinds lines) fuel) := by
  induction fuel with
  | zero => exact fun _ _ => mirrors_ite (mirrors_pure _) (mirrors_throw _ _)
  | succ fuel ih =>
    intro value parent
    cases value with
    | null => exact mirrors_pure _
    | node n =>
      refine (mirrors_enterNode h n parent).bind fun _ => ?_
      refine (mirrors_thenRise ?_).bind fun _ => mirrors_traceLine h _
      exact mirrors_handleNode h ih n
    | _ => exact mirrors_refuse h _

theorem mirrors_visit : MirrorsVisit tell (visit cfg) (visit (cfg.less kinds lines)) :=
  fun value parent => mirrors_visitWithin h value.size value parent

end Reports

end Check

end ScopeLint
