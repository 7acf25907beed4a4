import ScopeLint.Proofs.Checker.Scenes
import ScopeLint.Proofs.Checker.TaskSteps

/-! # Where a run does not go

Beside what can be read off the tree, a run visits nothing but nodes of examples. -/
namespace ScopeLint

/-- Nodes that a run cannot leave: with a node, what is visited below it now or later is among them,
and so are the nodes of examples. -/
structure Setup.Confines (cfg : Setup) (next : Nat) (among : Node → Prop) : Prop where
  taken : ∀ n m, among n → .node m ∈ (n.taken cfg.dialect).map (·.2) → among m
  deferred : ∀ n m, among n → n.isFunction = true → .node m ∈ n.deferred → among m
  fresh : ∀ n : Node, n.FreshFrom next → n.Distinct → ∀ m ∈ n.children, among m

/-- Only such nodes have been visited, and only bodies of such functions have been put off. -/
structure State.Confined (next : Nat) (among : Node → Prop) (s : State) : Prop where
  free : next ≤ s.nextNode
  marks : ∀ e ∈ s.marks, ∃ m, among m ∧ m.id = e.1
  bodies : ∀ d ∈ s.queued, ∀ n names, d.task = .body n names → n.isFunction = true ∧ among n

theorem Step.Leads.mem_queued {cfg : Setup} {s t : State} {step : Step} (h : step.Leads cfg s t)
    {d : Deferred} (hd : d ∈ t.queued) : d ∈ s.queued ∨ step.task? = some d.task := by
  rw [State.queued, h.functions_eq] at hd
  cases hfunctions : s.functions with
  | none => simp [hfunctions] at hd
  | some entries =>
    rw [State.queued, hfunctions]
    cases htask : step.task? with
    | none => simpa [hfunctions, htask] using hd
    | some task =>
      have hd : d ∈ entries ∨ d = ⟨task, s.stack, s.shift⟩ := by simpa [hfunctions, htask] using hd
      rcases hd with hd | rfl
      · exact .inl (by simpa using hd)
      · exact .inr rfl

theorem Step.eq_of_task? {step : Step} {task : Task} (h : step.task? = some task) :
    ∃ n, step = .take n (.defers task) := by
  cases step with
  | enter | leave => cases h
  | take n op =>
    cases op with
    | defers =>
      cases h
      exact ⟨n, rfl⟩
    | _ => cases h

section Confinement

variable {cfg : Setup} {next : Nat} {among : Node → Prop} {s t : State}

theorem State.Confined.step (hs : s.Confined next among) {step : Step}
    (hstep : step.IsOf cfg among fun n _ => among n) (h : step.Leads cfg s t) :
    t.Confined next among where
  free := h.nextNode_eq ▸ hs.free
  marks := by
    rw [h.marks_eq]
    cases step with
    | enter m n => exact List.forall_mem_cons.mpr ⟨⟨m, hstep, rfl⟩, hs.marks⟩
    | _ => exact hs.marks
  bodies := by
    intro d hd n names hbody
    rcases h.mem_queued hd with hd | htask
    · exact hs.bodies d hd n names hbody
    · obtain ⟨m, rfl⟩ := Step.eq_of_task? (hbody ▸ htask)
      obtain ⟨hm, ⟨rfl, hfunction⟩, -⟩ := hstep
      exact ⟨hfunction, hm⟩

theorem State.Confined.pauses (hs : s.Confined next among) (h : s.Pauses t) :
    t.Confined next among where
  free := Nat.le_trans hs.free h.nextNode_le
  marks := h.marks_eq ▸ hs.marks
  bodies := by
    rw [State.queued, h.functions_eq]
    exact hs.bodies

namespace Check

variable (hamong : cfg.Confines next among)

include hamong

theorem confined_visitChildren {n : Node} (hn : ∀ m ∈ n.children, among m) {steps : List Step}
    (hsteps : n.childSteps cfg = .ok steps) (h : Step.runAll cfg steps s = .ok () t)
    (hs : s.Confined next among) : t.Confined next among := by
  refine Step.runAll_invariant (fun _ _ _ hstep hl hs => hs.step hstep hl) ?_ h hs
  refine NodeOf.isOf_childSteps (fun m k hm hk => ?_) hsteps fun m hm => ⟨hn m hm, hn m hm⟩
  exact ⟨hamong.taken m k hm hk, hamong.taken m k hm hk⟩

theorem confined_runTask {d : Deferred} (hd : d ∈ s.queued)
    (h : runTask cfg (visit cfg) d.task s = .ok () t) (hs : s.Confined next among) :
    t.Confined next among := by
  refine runTask_invariant (fun _ _ h hs => hs.pauses h)
    (fun n names steps r u hbody hsteps hrun hr => ?_)
    (fun n text examples e tree shift steps r u _ _ _ _ _ hsteps hrun hr => ?_) h hs
  · obtain ⟨hfunction, hn⟩ := hs.bodies d hd n names hbody
    refine Step.runAll_invariant (fun _ _ _ hstep hl hs => hs.step hstep hl) ?_ hrun hr
    refine NodeOf.isOf_bodySteps (fun m k hm hk => ?_) hsteps hn fun m hm => ?_
    · exact ⟨hamong.taken m k hm hk, hamong.taken m k hm hk⟩
    · exact ⟨hamong.deferred n m hn hfunction hm, hamong.deferred n m hn hfunction hm⟩
  · -- the tree of an example has numbers of its own
    have hnumbered := NodeOf.numberedFrom r.nextNode tree
    have hfresh : (tree.numbered r.nextNode).1.FreshFrom next := fun m hm =>
      Nat.le_trans hr.free (hnumbered.bounds hm).1
    have hstart : (r.forExample tree shift).Confined next among :=
      hr.pauses ⟨rfl, rfl, rfl, rfl, hnumbered.1, [], rfl, by simp⟩
    exact confined_visitChildren hamong (hamong.fresh _ hfresh hnumbered.nodup) hsteps hrun hstart

theorem confined_walk (hroot : ∀ m ∈ cfg.root.children, among m)
    (h : visitChildren (visit cfg) cfg.root (State.initial next) = .ok () s) :
    s.Confined next among := by
  obtain ⟨steps, hsteps, hrun⟩ := exists_childSteps h
  exact confined_visitChildren hamong hroot hsteps hrun
    ⟨Nat.le_refl _, by simp [State.initial], by simp [State.queued, State.initial]⟩

theorem confined_task {i : Nat} {d : Deferred} (hs : s.Confined next among)
    (he : s.Entry .functions i d)
    (htask : runTask cfg (visit cfg) d.task (s.resumed .functions i d) = .ok () t) :
    t.Confined next among := by
  have hd : d ∈ (s.resumed .functions i d).queued := List.mem_of_getElem? (entry_iff_queued.mp he)
  exact confined_runTask hamong hd htask
    (hs.pauses ⟨rfl, rfl, rfl, rfl, Nat.le_refl _, [], rfl, by simp⟩)

/-- A run keeps to nodes that it cannot leave. -/
theorem confined_explore (hroot : ∀ m ∈ cfg.root.children, among m)
    (h : explore cfg (State.initial next) = .ok () t) : t.Confined next among := by
  obtain ⟨_, hend, -⟩ := explore_preserves (fun _ _ _ _ hs => confined_task hamong hs)
    (fun s hwalk => confined_walk hamong hroot hwalk) h
  exact hend

end Check

end Confinement

end ScopeLint
