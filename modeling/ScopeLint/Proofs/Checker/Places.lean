import ScopeLint.Proofs.Checker.Shape

/-! # Where nodes are put

A node is moved when it is visited under a shift, and at no other time. -/
namespace ScopeLint

/-- The place that a shift takes a position to. -/
def Shift.move (shift : Shift) (p : Position) : Except Fault Position := do
  let line ← p.line.add (← shift.line)
  let column ← p.column.add (← shift.column)
  return ⟨line, column⟩

/-- How the list of moves looks when the shift in force has been applied to `m`. Without a shift or a
line the node stays where it is. -/
inductive State.Shifts (s : State) (m : Node) : List (Nat × Position) → Prop where
  | stays : (∀ shift p, s.shift = some shift → s.position? m = some p → p.line.isNull = true) →
      Shifts s m s.moved
  | moves {shift p p'} : s.shift = some shift → s.position? m = some p → p.line.isNull = false →
      shift.move p = .ok p' → Shifts s m ((m.id, p') :: s.moved)

namespace Check

variable {cfg : Setup} {s t : State} {m n : Node} {e : Fault}

/-- What a shift does to a node that has a line. The line is set before the column is known. -/
theorem shiftNode_cases {shift : Shift} {p : Position} (hshift : s.shift = some shift)
    (hposition : s.position? m = some p) (hnull : p.line.isNull = false) :
    (∃ p', shift.move p = .ok p' ∧
      shiftNode m s = .ok () { s with moved := (m.id, p') :: s.moved }) ∨
    (∃ e, shiftNode m s = .error e s) ∨
    ∃ e p', shiftNode m s = .error e { s with moved := (m.id, p') :: s.moved } := by
  cases hline : (do p.line.add (← shift.line) : Except Fault Datum) with
  | error e => exact .inr (.inl ⟨e, by simp [shiftNode, hshift, hposition, hnull, hline, lift]⟩)
  | ok line =>
    cases hcolumn : (do p.column.add (← shift.column) : Except Fault Datum) with
    | error e =>
      refine .inr (.inr ⟨e, ⟨line, p.column⟩, ?_⟩)
      simp [shiftNode, hshift, hposition, hnull, hline, hcolumn, lift, moveNode]
    | ok column =>
      refine .inl ⟨⟨line, column⟩, ?_, ?_⟩
      · obtain ⟨down, hdown, hline⟩ := ScopeLint.bind_eq_ok.mp hline
        obtain ⟨right, hright, hcolumn⟩ := ScopeLint.bind_eq_ok.mp hcolumn
        simp [Shift.move, hdown, hright, hline, hcolumn, pure, Except.pure]
      · simp [shiftNode, hshift, hposition, hnull, hline, hcolumn, lift, moveNode]

theorem shiftNode_stays
    (h : ∀ shift p, s.shift = some shift → s.position? m = some p → p.line.isNull = true) :
    shiftNode m s = .ok () s := by
  cases hshift : s.shift with
  | none => simp [shiftNode, hshift]
  | some shift =>
    cases hposition : s.position? m with
    | none => simp [shiftNode, hshift, hposition]
    | some p => simp [shiftNode, hshift, hposition, h shift p hshift hposition]

theorem stays_or_moves (s : State) (m : Node) :
    (∀ shift p, s.shift = some shift → s.position? m = some p → p.line.isNull = true) ∨
      ∃ shift p, s.shift = some shift ∧ s.position? m = some p ∧ p.line.isNull = false := by
  by_cases h : ∃ shift p, s.shift = some shift ∧ s.position? m = some p ∧ p.line.isNull = false
  · exact .inr h
  · refine .inl fun shift p hshift hposition => ?_
    by_contra hnull
    exact h ⟨shift, p, hshift, hposition, by simpa using hnull⟩

theorem shiftNode_eq_ok (h : shiftNode m s = .ok () t) :
    s.Shifts m t.moved ∧ t = { s with moved := t.moved } := by
  rcases stays_or_moves s m with hstays | ⟨shift, p, hshift, hposition, hnull⟩
  · rw [shiftNode_stays hstays] at h
    cases h
    exact ⟨.stays hstays, rfl⟩
  · obtain ⟨p', hmove, heq⟩ | ⟨e, heq⟩ | ⟨e, p', heq⟩ := shiftNode_cases hshift hposition hnull
    all_goals
      rw [heq] at h
      cases h
    exact ⟨.moves hshift hposition hnull hmove, rfl⟩

theorem shiftNode_eq_error (h : shiftNode m s = .error e t) :
    t.moved = s.moved ∨ ∃ p, t.moved = (m.id, p) :: s.moved := by
  rcases stays_or_moves s m with hstays | ⟨shift, p, hshift, hposition, hnull⟩
  · rw [shiftNode_stays hstays] at h
    cases h
  · obtain ⟨p', hmove, heq⟩ | ⟨e, heq⟩ | ⟨e, p', heq⟩ := shiftNode_cases hshift hposition hnull
    all_goals
      rw [heq] at h
      cases h
    · exact .inl rfl
    · exact .inr ⟨p', rfl⟩

theorem enterNode_shifts (h : enterNode cfg m n s = .ok () t) : s.Shifts m t.moved := by
  obtain ⟨_, t₁, hshift, h⟩ := bind_apply_eq_ok.mp h
  obtain ⟨_, t₂, htrace, h⟩ := bind_apply_eq_ok.mp h
  obtain ⟨_, t₃, hclose, h⟩ := bind_apply_eq_ok.mp h
  have hmoved : t₃.moved = t₁.moved :=
    (((told_closeFutures (.node m)).ends cfg).ok hclose).moved_eq.trans
      ((told_traceLine m.kind).ok htrace).moved_eq
  cases h
  have hall : s.Shifts m t₃.moved := hmoved ▸ (shiftNode_eq_ok hshift).1
  exact hall

theorem enterNode_touches (h : enterNode cfg m n s = .error e t) :
    t.moved = s.moved ∨ ∃ p, t.moved = (m.id, p) :: s.moved := by
  rcases bind_apply_eq_error.mp h with h | ⟨_, t₁, hshift, h⟩
  · exact shiftNode_eq_error h
  have hrest : t.moved = t₁.moved := by
    have htrace := told_traceLine m.kind
    have hclose := (told_closeFutures (.node m)).ends cfg
    rcases bind_apply_eq_error.mp h with h | ⟨_, t₂, h₂, h⟩
    · exact (htrace.fail h).moved_eq
    rcases bind_apply_eq_error.mp h with h | ⟨_, t₃, h₃, h⟩
    · exact (hclose.fail h).moved_eq.trans (htrace.ok h₂).moved_eq
    · cases h
  rw [hrest]
  have hshifts := (shiftNode_eq_ok hshift).1
  generalize t₁.moved = moved at hshifts
  cases hshifts with
  | stays => exact .inl rfl
  | moves => exact .inr ⟨_, rfl⟩

/-- What can have no place moves nothing. -/
theorem refuse_moved {v : Value} (h : refuse cfg v s = .error e t) : t.moved = s.moved := by
  have htrace := told_traceLine v.typeName
  have hclose := (told_closeFutures v).ends cfg
  rcases bind_apply_eq_error.mp h with h | ⟨_, t₁, h₁, h⟩
  · exact (htrace.fail h).moved_eq
  rcases bind_apply_eq_error.mp h with h | ⟨_, t₂, h₂, h⟩
  · exact (hclose.fail h).moved_eq.trans (htrace.ok h₁).moved_eq
  · cases h
    exact (hclose.ok h₂).moved_eq.trans (htrace.ok h₁).moved_eq

end Check

end ScopeLint
