import Mathlib.Data.List.Forall2
import ScopeLint.Checker.State

/-! # Steps on a state, run on a state -/
namespace ScopeLint

open List

variable {ε σ α β γ : Type} {φ : Type} {b : β} {x : EStateM ε σ α} {f : α → EStateM ε σ β} {s u : σ}

@[simp] theorem pure_apply (a : α) (s : σ) : (pure a : EStateM ε σ α) s = .ok a s := rfl

@[simp] theorem bind_apply (x : EStateM ε σ α) (f : α → EStateM ε σ β) (s : σ) :
    (x >>= f) s = match x s with
      | .ok a t => f a t
      | .error e t => .error e t := rfl

@[simp] theorem map_apply (f : α → β) (x : EStateM ε σ α) (s : σ) : (f <$> x) s = match x s with
      | .ok a t => .ok (f a) t
      | .error e t => .error e t := rfl

@[simp] theorem get_apply (s : σ) : (get : EStateM ε σ σ) s = .ok s s := rfl

@[simp] theorem set_apply (s t : σ) : (set t : EStateM ε σ PUnit) s = .ok ⟨⟩ t := rfl

@[simp] theorem modify_apply (f : σ → σ) (s : σ) :
    (modify f : EStateM ε σ PUnit) s = .ok ⟨⟩ (f s) := rfl

@[simp] theorem throw_apply (e : ε) (s : σ) : (throw e : EStateM ε σ α) s = .error e s := rfl

@[simp] theorem ok_bind (a : α) (f : α → Except ε β) : Except.ok a >>= f = f a := rfl

@[simp] theorem error_bind (e : ε) (f : α → Except ε β) : Except.error e >>= f = .error e := rfl

@[simp] theorem map_ok (f : α → β) (a : α) : f <$> (Except.ok a : Except ε α) = .ok (f a) := rfl

@[simp] theorem map_error (f : α → β) (e : ε) : f <$> (Except.error e) = .error e := rfl

@[simp] theorem mapError_ok (f : ε → φ) (a : α) : (Except.ok a).mapError f = .ok a := rfl

@[simp] theorem mapError_error (f : ε → φ) (e : ε) :
    (Except.error e : Except ε α).mapError f = .error (f e) := rfl

/-- A sequence of steps that can fail succeeds where each of them does. -/
theorem bind_eq_ok {x : Except ε α} {f : α → Except ε β} :
    x >>= f = .ok b ↔ ∃ a, x = .ok a ∧ f a = .ok b := by
  cases x with
  | error e => simp
  | ok a => simp

/-- A list of steps that can fail succeeds where each of them does. -/
theorem mapM_eq_ok {f : α → Except ε β} {xs : List α} {ys : List β} :
    xs.mapM f = .ok ys ↔ List.Forall₂ (fun x y => f x = .ok y) xs ys := by
  induction xs generalizing ys with
  | nil => simp [pure, Except.pure, eq_comm]
  | cons x rest ih =>
    simp only [mapM_cons, bind_eq_ok, ih, forall₂_cons_left_iff, pure, Except.pure,
      Except.ok.injEq]
    constructor
    · rintro ⟨y, hy, ys, hys, rfl⟩
      exact ⟨y, ys, hy, hys, rfl⟩
    · rintro ⟨y, ys, hy, hys, rfl⟩
      exact ⟨y, hy, ys, hys, rfl⟩

theorem exists_mapM_eq_map {f : α → Except ε β} {xs : List α} {g : γ → β}
    (h : ∀ x ∈ xs, ∃ c, f x = .ok (g c)) : ∃ cs : List γ, xs.mapM f = .ok (cs.map g) := by
  induction xs with
  | nil => exact ⟨[], rfl⟩
  | cons x rest ih =>
    obtain ⟨⟨c, hc⟩, hrest⟩ := forall_mem_cons.mp h
    obtain ⟨cs, hcs⟩ := ih hrest
    exact ⟨c :: cs, by rw [mapM_cons, hc, hcs]; rfl⟩

theorem exists_mapM_eq_ok {f : α → Except ε β} {xs : List α} (h : ∀ x ∈ xs, ∃ y, f x = .ok y) :
    ∃ ys, xs.mapM f = .ok ys := by
  obtain ⟨ys, hys⟩ := exists_mapM_eq_map (g := id) h
  exact ⟨_, hys⟩

/-- A search that can fail does as another over a list whose items correspond to those of its own. -/
theorem anyM_congr {f : α → Except ε Bool} {g : β → Except ε Bool} {xs : List α} {ys : List β}
    (h : List.Forall₂ (fun x y => f x = g y) xs ys) : xs.anyM f = ys.anyM g := by
  induction h with
  | nil => rfl
  | cons hfirst _ ih => rw [anyM, anyM, hfirst, ih]

theorem anyM_eq_ok {f : α → Except ε Bool} {xs : List α} {g : γ → α} {cs : List γ} {p : γ → Bool}
    (hxs : xs = cs.map g) (h : ∀ c ∈ cs, f (g c) = .ok (p c)) : xs.anyM f = .ok (cs.any p) := by
  rw [hxs]
  exact (anyM_congr (forall₂_map_left_iff.mpr (forall₂_same.mpr h))).trans anyM_pure

theorem bind_apply_eq_ok : (x >>= f) s = .ok b u ↔ ∃ a t, x s = .ok a t ∧ f a t = .ok b u := by
  rw [bind_apply]
  cases x s with
  | error e t => simp
  | ok a t => simp [and_assoc]

theorem get_bind_eq_ok {f : σ → EStateM ε σ β} : (get >>= f) s = .ok b u ↔ f s s = .ok b u := Iff.rfl

theorem bind_apply_eq_error {e : ε} :
    (x >>= f) s = .error e u ↔ x s = .error e u ∨ ∃ a t, x s = .ok a t ∧ f a t = .error e u := by
  rw [bind_apply]
  cases x s with
  | error e t => simp
  | ok a t => simp [and_assoc]

end ScopeLint
