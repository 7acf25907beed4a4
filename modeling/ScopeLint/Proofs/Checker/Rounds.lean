import ScopeLint.Proofs.Checker.Ledger
import ScopeLint.Proofs.Checker.UnusedLocals

/-! # The queue is gone through

The entries of the queue are taken up one after another, from the first to the last, also while the
queue grows. What each task hands on to the next holds when all have been taken up. -/
namespace ScopeLint

theorem State.Entry.unique {s : State} {q : Queue} {i : Nat} {d e : Deferred} (hd : s.Entry q i d)
    (he : s.Entry q i e) : d = e := by
  obtain ⟨entries, hentries, hd⟩ := hd
  obtain ⟨entries', hentries', he⟩ := he
  cases hentries.symm.trans hentries'
  exact Option.some.inj (hd.symm.trans he)

namespace Check

variable {cfg : Setup} {next : Nat} {s t : State} {i : Nat} {d : Deferred}

theorem entry_iff_queued : s.Entry .functions i d ↔ s.queued[i]? = some d := by
  cases hfunctions : s.functions with
  | none => simp [State.Entry, State.queue, State.queued, hfunctions]
  | some entries => simp [State.Entry, State.queue, State.queued, hfunctions]

theorem not_entry_of_drop {done : Nat} (h : s.queued.drop done = []) (hi : done ≤ i) :
    ¬ s.Entry .functions i d := by
  rw [entry_iff_queued, List.getElem?_eq_none]
  · simp
  · exact Nat.le_trans (List.drop_eq_nil_iff.mp h) hi

theorem drop_queued_of_entry (h : s.Entry .functions i d) :
    s.queued.drop i = d :: s.queued.drop (i + 1) := by
  obtain ⟨hlt, rfl⟩ := List.getElem?_eq_some_iff.mp (entry_iff_queued.mp h)
  exact List.drop_eq_getElem_cons hlt

theorem strokes_of_task (he : s.Entry .functions i d)
    (h : runTask cfg (visit cfg) d.task (s.resumed .functions i d) = .ok () t) :
    Strokes cfg .functions s t := by
  have hone : runEntries cfg (visit cfg) .functions i [d] s = .ok () t :=
    bind_apply_eq_ok.mpr ⟨_, s.resumed .functions i d, rfl, bind_apply_eq_ok.mpr ⟨_, t, h, rfl⟩⟩
  refine (strokes_runEntries (fun _ _ _ hv => follows_visit hv) i [d] s fun k e hk => ?_).ok hone
  cases k with
  | zero =>
    cases hk
    exact he
  | succ k => simp at hk

theorem entry_of_runTask {j : Nat} {e : Deferred} (he : s.Entry .functions i d)
    (h : runTask cfg (visit cfg) d.task (s.resumed .functions i d) = .ok () t) (hj : j ≤ i)
    (hd : t.Entry .functions j e) : s.Entry .functions j e := by
  obtain ⟨hlt, -⟩ := List.getElem?_eq_some_iff.mp (entry_iff_queued.mp he)
  have hold := entry_iff_queued.mpr (List.getElem?_eq_getElem (Nat.lt_of_le_of_lt hj hlt))
  have hkept := (strokes_of_task he h).grows.entry .functions j _ hold
  rwa [hd.unique hkept]

/-- A round through the queue is not begun, finds nothing to do, or is followed by another round. -/
theorem drainWithin_cases (cfg : Setup) (visit : Visit) (fuel done : Nat) (s : State) :
    (∃ e, drainWithin cfg visit .functions fuel done s = .error e s) ∨
    (s.queued.drop done = [] ∧ drainWithin cfg visit .functions fuel done s = .ok () s) ∨
    ∃ rounds, fuel = rounds + 1 ∧ drainWithin cfg visit .functions fuel done s = (do
      runEntries cfg visit .functions done (s.queued.drop done)
      drainWithin cfg visit .functions rounds (done + (s.queued.drop done).length)) s := by
  cases hq : s.queue .functions with
  | none => exact .inl ⟨.wrongType, by rw [drainWithin]; simp [hq]⟩
  | some entries =>
    have hfunctions : s.functions = some entries := hq
    have hentries : s.queued = entries.toList := by rw [State.queued, hfunctions, Option.getD_some]
    rw [hentries]
    by_cases hempty : entries.toList.drop done = []
    · exact .inr (.inl ⟨hempty, by rw [drainWithin_apply hq, if_pos hempty]⟩)
    · cases fuel with
      | zero => exact .inl ⟨.endless, by rw [drainWithin_apply hq, if_neg hempty]⟩
      | succ rounds => exact .inr (.inr ⟨rounds, rfl, by rw [drainWithin_apply hq, if_neg hempty]⟩)

section Invariant

/-! `P i s` is said of a state where the entries before number `i` have been taken up, and `Q` of a
state where the loop has failed. -/

variable {P : Nat → State → Prop} {Q : State → Prop}
  (hstep : ∀ i s d, P i s → s.Entry .functions i d →
    Lands (P (i + 1)) Q (runTask cfg (visit cfg) d.task) (s.resumed .functions i d))

include hstep

private theorem runEntries_invariant {ds : List Deferred} (hs : P i s)
    (he : ∀ k d, ds[k]? = some d → s.Entry .functions (i + k) d) :
    Lands (P (i + ds.length)) Q (runEntries cfg (visit cfg) .functions i ds) s := by
  induction ds generalizing i s with
  | nil => exact hs
  | cons d rest ih =>
    have hentry := he 0 d rfl
    have hresumed : runEntries cfg (visit cfg) .functions i (d :: rest) s = (do
        runTask cfg (visit cfg) d.task
        runEntries cfg (visit cfg) .functions (i + 1) rest) (s.resumed .functions i d) := rfl
    rw [Lands, hresumed]
    refine (hstep i s d hs hentry).bind fun _ u hu hP => ?_
    rw [List.length_cons, Nat.add_comm rest.length, ← Nat.add_assoc]
    refine ih hP fun k e hk => ?_
    have hlater := he (k + 1) e hk
    rw [show i + (k + 1) = i + 1 + k by omega] at hlater
    exact (strokes_of_task hentry hu).grows.entry .functions _ e hlater

variable (hend : ∀ i s, P i s → Q s)

include hend

theorem drainWithin_invariant {fuel done : Nat} (hs : P done s) :
    Lands (fun t => ∃ i, P i t ∧ t.queued.drop i = []) Q
      (drainWithin cfg (visit cfg) .functions fuel done) s := by
  induction fuel using Nat.strong_induction_on generalizing done s with
  | _ fuel ih =>
    obtain ⟨f, heq⟩ | ⟨hempty, heq⟩ | ⟨rounds, rfl, heq⟩ :=
      drainWithin_cases cfg (visit cfg) fuel done s
    · rw [Lands, heq]
      exact hend done s hs
    · rw [Lands, heq]
      exact ⟨done, hs, hempty⟩
    · have hround := runEntries_invariant hstep hs fun k d hk => by
        rwa [entry_iff_queued, ← List.getElem?_drop]
      rw [Lands, heq]
      exact hround.bind fun _ r _ hr => ih rounds (Nat.lt_succ_self _) hr

theorem explore_invariant
    (hwalk : Lands (P 0) Q (visitChildren (visit cfg) cfg.root) (State.initial next)) :
    Lands (fun t => ∃ i, P i t ∧ t.queued.drop i = []) Q (explore cfg) (State.initial next) :=
  hwalk.bind fun _ _ _ hs => drainWithin_invariant hstep hend hs

end Invariant

/-- What each task that gets through hands on to the next. -/
theorem explore_preserves {P : Nat → State → Prop} (hstep : ∀ i s d t, P i s → s.Entry .functions i d →
      runTask cfg (visit cfg) d.task (s.resumed .functions i d) = .ok () t → P (i + 1) t)
    (hwalk : ∀ s, visitChildren (visit cfg) cfg.root (State.initial next) = .ok () s → P 0 s)
    (h : explore cfg (State.initial next) = .ok () s) : ∃ i, P i s ∧ s.queued.drop i = [] :=
  (explore_invariant (fun i s d hs he => lands_of (fun _ t => hstep i s d t hs he) fun _ _ _ => trivial)
    (fun _ _ _ => trivial) (lands_of (fun _ => hwalk) fun _ _ _ => trivial)).ok h

end Check

end ScopeLint
