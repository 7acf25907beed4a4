import ScopeLint.Proofs.Checker.Course

/-! # What a course does to the shape of a state

It adds scopes and put-off tasks, and it comes back to the stack, the guards, the depth and the shift
that it started with. -/
namespace ScopeLint

open Check

variable {cfg : Setup} {s t u : State} {n : Node} {q : Queue}

namespace State

/-- Number `i` of a queue that is open. -/
def Entry (s : State) (q : Queue) (i : Nat) (d : Deferred) : Prop :=
  ∃ entries, s.queue q = some entries ∧ entries[i]? = some d

def withTask (s : State) (q : Queue) (entries : Array Deferred) (task : Task) : State :=
  s.setQueue q (some (entries.push ⟨task, s.stack, s.shift⟩))

/-- The state in which the rule for `m` below `n` is applied. -/
def entered (s : State) (m n : Node) : State :=
  { s with depth := s.depth + 1, marks := (m.id, ⟨s.depth + 1, s.lineage n⟩) :: s.marks }

def closed (s : State) (id : ScopeId) (rest : List ScopeId) : State :=
  { s with stack := rest, dead := s.dead.push id }

theorem Alike.queue_eq (h : s.Alike t) (q : Queue) : t.queue q = s.queue q := by
  cases q with
  | functions => exact h.functions_eq
  | assignments => exact h.assignments_eq

end State

namespace Check

variable {m : Node} {e : Fault}

theorem popScope_eq_ok (h : popScope s = .ok () t) :
    ∃ id rest, s.stack = id :: rest ∧ t = s.closed id rest := by
  simp only [popScope, bind_apply, get_apply] at h
  cases hs : s.stack with
  | nil =>
    rw [hs] at h
    cases h
  | cons id rest =>
    rw [hs] at h
    cases h
    exact ⟨id, rest, rfl, rfl⟩

theorem defer_eq_ok {task : Task} (h : defer q task s = .ok () t) :
    ∃ entries, s.queue q = some entries ∧ t = s.withTask q entries task := by
  simp only [defer, bind_apply, get_apply] at h
  cases hq : s.queue q with
  | none =>
    rw [hq] at h
    cases h
  | some entries =>
    rw [hq] at h
    cases h
    exact ⟨entries, rfl, rfl⟩

theorem enterNode_eq_ok (h : enterNode cfg m n s = .ok () t) :
    ∃ u, s.Still u ∧ t = u.entered m n := by
  obtain ⟨_, t₁, h₁, h⟩ := bind_apply_eq_ok.mp h
  obtain ⟨_, t₂, h₂, h⟩ := bind_apply_eq_ok.mp h
  obtain ⟨_, t₃, h₃, h⟩ := bind_apply_eq_ok.mp h
  have hs := (((told_shiftNode m).ends cfg).ok h₁).trans ((told_traceLine m.kind).ok h₂).toStill
  refine ⟨t₃, hs.trans (((told_closeFutures (.node m)).ends cfg).ok h₃).toStill, ?_⟩
  cases h
  rfl

theorem enterNode_eq_error (h : enterNode cfg m n s = .error e t) : s.Still t := by
  have hshift := (told_shiftNode m).ends cfg
  have htrace := Quiet.calm ((told_traceLine m.kind).ends cfg)
  have hclose := Quiet.calm ((told_closeFutures (.node m)).ends cfg)
  rcases bind_apply_eq_error.mp h with h | ⟨_, t₁, h₁, h⟩
  · exact hshift.fail h
  rcases bind_apply_eq_error.mp h with h | ⟨_, t₂, h₂, h⟩
  · exact (hshift.ok h₁).trans (htrace.fail h)
  rcases bind_apply_eq_error.mp h with h | ⟨_, t₃, h₃, h⟩
  · exact ((hshift.ok h₁).trans (htrace.ok h₂)).trans (hclose.fail h)
  · cases h

theorem thenRise_eq_ok {act : Check Unit} (h : thenRise act s = .ok () t) :
    ∃ u, act s = .ok () u ∧ t = u.risen := by
  unfold thenRise at h
  split at h
  · rename_i hact
    cases h
    exact ⟨_, hact, rfl⟩
  · cases h

/-- What cannot have a place leaves the state one level too deep, unless it fails before. -/
theorem refuse_eq_error {v : Value} (h : refuse cfg v s = .error e t) :
    ∃ u, s.Still u ∧ (t = u ∨ t = { u with depth := u.depth + 1 }) := by
  have htrace := Quiet.calm ((told_traceLine v.typeName).ends cfg)
  have hclose := Quiet.calm ((told_closeFutures v).ends cfg)
  rcases bind_apply_eq_error.mp h with h | ⟨_, t₁, h₁, h⟩
  · exact ⟨t, htrace.fail h, .inl rfl⟩
  rcases bind_apply_eq_error.mp h with h | ⟨_, t₂, h₂, h⟩
  · exact ⟨t, (htrace.ok h₁).trans (hclose.fail h), .inl rfl⟩
  · cases h
    exact ⟨t₂, (htrace.ok h₁).trans (hclose.ok h₂), .inr rfl⟩

end Check

/-- A state in which scopes have been added, and tasks at the end of the queues. If future imports may
stand there, they might before. -/
structure State.Grows (s t : State) : Prop where
  size_le : s.scopes.size ≤ t.scopes.size
  kindOf_eq : ∀ id < s.scopes.size, t.kindOf id = s.kindOf id
  entry : ∀ q i d, s.Entry q i d → t.Entry q i d
  futures : t.futuresAllowed = true → s.futuresAllowed = true

namespace State

variable {id : ScopeId} {entries : Array Deferred}

theorem Grows.refl (s : State) : s.Grows s :=
  ⟨Nat.le_refl _, fun _ _ => rfl, fun _ _ _ h => h, id⟩

theorem Grows.trans (h : s.Grows t) (k : t.Grows u) : s.Grows u where
  size_le := Nat.le_trans h.size_le k.size_le
  kindOf_eq := fun id hid =>
    (k.kindOf_eq id (Nat.lt_of_lt_of_le hid h.size_le)).trans (h.kindOf_eq id hid)
  entry := fun q i d hd => k.entry q i d (h.entry q i d hd)
  futures := h.futures ∘ k.futures

/-- Nothing else counts. -/
theorem Grows.of_eq (hsize : t.scopes.size = s.scopes.size) (hkind : ∀ id, t.kindOf id = s.kindOf id)
    (hqueue : ∀ q, t.queue q = s.queue q)
    (hfutures : t.futuresAllowed = true → s.futuresAllowed = true) : s.Grows t where
  size_le := Nat.le_of_eq hsize.symm
  kindOf_eq := fun id _ => hkind id
  entry := fun q i d hd => by rwa [Entry, hqueue q]
  futures := hfutures

theorem Alike.grows (h : s.Alike t) : s.Grows t :=
  .of_eq h.size_eq h.kindOf_eq h.queue_eq h.futures

theorem lt_size_of_kindOf {kind : ScopeKind} (h : s.kindOf id = some kind) :
    id < s.scopes.size := by
  rcases Nat.lt_or_ge id s.scopes.size with hid | hid
  · exact hid
  · simp [kindOf, scope?, Array.getElem?_eq_none hid] at h

theorem kindOf_opened_of_lt (s : State) (kind : ScopeKind) (h : id < s.scopes.size) :
    (s.opened kind).kindOf id = s.kindOf id := by
  simp [kindOf, scope?, opened, Array.getElem?_push, Nat.ne_of_lt h]

theorem grows_opened (s : State) (kind : ScopeKind) : s.Grows (s.opened kind) where
  size_le := by simp [opened]
  kindOf_eq := fun _ h => kindOf_opened_of_lt s kind h
  entry := fun q i d hd => hd
  futures := id

theorem grows_closed (s : State) (id : ScopeId) (rest : List ScopeId) :
    s.Grows (s.closed id rest) :=
  .of_eq rfl (fun _ => rfl) (fun q => by cases q <;> rfl) fun h => h

theorem grows_entered (s : State) (m n : Node) : s.Grows (s.entered m n) :=
  .of_eq rfl (fun _ => rfl) (fun q => by cases q <;> rfl) id

theorem grows_risen (s : State) : s.Grows s.risen :=
  .of_eq rfl (fun _ => rfl) (fun q => by cases q <;> rfl) id

theorem grows_guarded (s : State) (names : List Datum) : s.Grows (s.guarded names) :=
  .of_eq rfl (fun _ => rfl) (fun q => by cases q <;> rfl) id

theorem grows_unguarded (s : State) : s.Grows s.unguarded :=
  .of_eq rfl (fun _ => rfl) (fun q => by cases q <;> rfl) id

theorem queue_setQueue (s : State) (q other : Queue) (entries : Option (Array Deferred)) :
    (s.setQueue q entries).queue other = if other = q then entries else s.queue other := by
  cases q <;> cases other <;> rfl

theorem entry_withTask (h : s.queue q = some entries) {task : Task} {other : Queue} {i : Nat}
    {d : Deferred} : (s.withTask q entries task).Entry other i d ↔
      s.Entry other i d ∨ (other = q ∧ i = entries.size ∧ d = ⟨task, s.stack, s.shift⟩) := by
  unfold withTask Entry
  rw [queue_setQueue]
  by_cases ho : other = q
  · subst ho
    simp only [if_true, h, Option.some.injEq, exists_eq_left']
    rw [Array.getElem?_push]
    by_cases hi : i = entries.size
    · simp [hi, eq_comm]
    · simp [hi]
  · simp [ho]

theorem grows_withTask (h : s.queue q = some entries) (task : Task) :
    s.Grows (s.withTask q entries task) where
  size_le := by cases q <;> exact Nat.le_refl _
  kindOf_eq := fun id _ => by cases q <;> rfl
  entry := fun other i d hd => (entry_withTask h).mpr (.inl hd)
  futures := by cases q <;> exact id

end State

variable {vs : List Value}

/-- Two states with the same stack, guards, depth and shift. -/
structure State.Level (s t : State) : Prop where
  stack_eq : t.stack = s.stack
  guards_eq : t.guards = s.guards
  depth_eq : t.depth = s.depth
  shift_eq : t.shift = s.shift

theorem State.Level.trans (h : s.Level t) (k : t.Level u) : s.Level u :=
  ⟨k.stack_eq.trans h.stack_eq, k.guards_eq.trans h.guards_eq, k.depth_eq.trans h.depth_eq,
    k.shift_eq.trans h.shift_eq⟩

theorem State.Alike.level (h : s.Alike t) : s.Level t :=
  ⟨h.stack_eq, h.guards_eq, h.depth_eq, h.shift_eq⟩

/-- Whatever a course opens it closes again. -/
theorem Course.level (h : Course cfg n vs s t) : s.Level t := by
  induction h with
  | done => exact ⟨rfl, rfl, rfl, rfl⟩
  | next _ _ ih ih' => exact ih.trans ih'
  | act a _ h => exact ((a.run_mild cfg).ok h).level
  | @scope n vs s t u kind _ _ hp ih =>
    obtain ⟨id, rest, hstack, rfl⟩ := popScope_eq_ok hp
    have htop := ih.stack_eq
    rw [hstack] at htop
    obtain ⟨-, rfl⟩ := List.cons.inj htop
    exact ⟨rfl, ih.guards_eq, ih.depth_eq, ih.shift_eq⟩
  | @guard n vs s t names _ ih =>
    refine ⟨ih.stack_eq, ?_, ih.depth_eq, ih.shift_eq⟩
    exact congrArg List.tail ih.guards_eq
  | task task _ hd =>
    obtain ⟨entries, -, rfl⟩ := defer_eq_ok hd
    exact ⟨rfl, rfl, rfl, rfl⟩
  | @node n vs s t u v m _ he _ ht ih =>
    obtain ⟨r, hr, rfl⟩ := enterNode_eq_ok he
    have hend := ((told_traceLine _).ok ht).level
    have hrisen : r.Level u.risen := by
      refine ⟨ih.stack_eq, ih.guards_eq, ?_, ih.shift_eq⟩
      have hdepth : u.depth = r.depth + 1 := ih.depth_eq
      simp [State.risen, hdepth]
    exact (hr.level.trans hrisen).trans hend

/-- What holds across the steps of a course, and across a scope, a guard and a node if it does so within
them, holds across the course. -/
theorem Course.induces {R : State → State → Prop} (hrefl : ∀ s, R s s)
    (htrans : ∀ {s t u}, R s t → R t u → R s u) (halike : ∀ {s t}, s.Alike t → R s t)
    (hscope : ∀ {s t kind n vs}, kind ≠ .module ∧ kind ≠ .function →
      Course cfg n vs (s.opened kind) t → R (s.opened kind) t →
      R s (t.closed s.scopes.size s.stack))
    (hguard : ∀ {s t names}, R (s.guarded names) t → R s t.unguarded)
    (htask : ∀ {s n task entries}, Task.IsOf n task → s.queue .functions = some entries →
      R s (s.withTask .functions entries task))
    (hnode : ∀ {s t} (m n : Node), R (s.entered m n) t → R s t.risen)
    (h : Course cfg n vs s t) : R s t := by
  induction h with
  | done => exact hrefl _
  | next _ _ ih ih' => exact htrans ih ih'
  | act a _ h => exact halike ((a.run_mild cfg).ok h)
  | scope kind hkind hc hp ih =>
    obtain ⟨id, rest, hstack, rfl⟩ := popScope_eq_ok hp
    obtain ⟨rfl, rfl⟩ := List.cons.inj (hc.level.stack_eq.symm.trans hstack)
    exact hscope hkind hc ih
  | guard names _ ih => exact hguard ih
  | task task hof hd =>
    obtain ⟨entries, hq, rfl⟩ := defer_eq_ok hd
    exact htask hof hq
  | node m _ he _ ht ih =>
    obtain ⟨u, hu, rfl⟩ := enterNode_eq_ok he
    have hend := ((told_traceLine _).ok ht).toAlike
    exact htrans (htrans (halike hu.toAlike) (hnode m _ ih)) (halike hend)

theorem Course.grows (h : Course cfg n vs s t) : s.Grows t :=
  h.induces .refl .trans State.Alike.grows
    (fun _ _ h => ((State.grows_opened _ _).trans h).trans (State.grows_closed _ _ _))
    (fun h => ((State.grows_guarded _ _).trans h).trans (State.grows_unguarded _))
    (fun _ hq => State.grows_withTask hq _)
    (fun m n h => ((State.grows_entered _ m n).trans h).trans (State.grows_risen _))

end ScopeLint
