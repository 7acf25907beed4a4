import Mathlib.Data.Finset.Basic
import Mathlib.Data.Finset.Image
import ScopeLint.Proofs.Checker.Moves

/-! # What is seen of the scopes

Whether a name is known depends on little: on the names that the open scopes hold, on their kinds, and
on star imports. A view of a scope is that much of it. -/
namespace ScopeLint

open List

/-- What is seen of a scope when a name is looked up. -/
@[ext]
structure View where
  kind : ScopeKind
  keys : Finset Datum.Key
  starred : Bool
  globals : Finset Datum.Key
  deriving DecidableEq

namespace View

/-- Function and module scopes lend their names to everything inside them. -/
def isLending (w : View) : Bool := w.kind == .function || w.kind == .module

/-- The scopes in which a name is looked up, innermost first, where the open scopes are given. -/
def visible : List View → Option (List View)
  | [] => none
  | top :: outer =>
    let lending := outer.filter isLending
    if top.kind = .generator then
      match lending, outer with
      | nearest :: _, below :: _ =>
        if below.isLending ∨ (nearest.keys = ∅ ∧ below.keys = ∅) then some (top :: lending)
        else some (top :: below :: lending)
      | _, _ => none
    else some (top :: lending)

def bind (w : View) (key : Datum.Key) : View := { w with keys := insert key w.keys }

def drop (w : View) (key : Datum.Key) : View := { w with keys := w.keys.erase key }

def declare (w : View) (key : Datum.Key) : View := { w with globals := insert key w.globals }

def forget (w : View) (key : Datum.Key) : View := { w with globals := w.globals.erase key }

end View

namespace Scope

variable {c declared : Scope} {key : Datum.Key}

def view (c : Scope) : View where
  kind := c.kind
  keys := c.keys.toFinset
  starred := c.starred
  globals := (c.globals.filterMap fun d => d.key.toOption).toFinset

theorem mem_keys_view : key ∈ c.view.keys ↔ c.has key = true := by
  rw [has_iff_mem_keys]
  exact mem_toFinset

theorem keys_view_eq_empty : c.view.keys = ∅ ↔ c.entries = [] := by
  rw [view, toFinset_eq_empty_iff, keys, map_eq_nil_iff]

theorem hasKey_iff {d : Datum} : d.hasKey key = true ↔ d.key.toOption = some key := by
  unfold Datum.hasKey
  cases d.key <;> simp [Except.toOption]

theorem mem_globals_view : key ∈ c.view.globals ↔ c.isGlobal key = true := by
  simp [view, isGlobal, hasKey_iff]

theorem view_insert (b : Binding) : (c.insert key b).view = c.view.bind key := by
  refine View.ext rfl ?_ rfl rfl
  ext other
  rw [mem_keys_view, View.bind, Finset.mem_insert, mem_keys_view, has, find?_insert]
  split <;> simp_all [has]

theorem view_erase : (c.erase key).view = c.view.drop key := by
  refine View.ext rfl ?_ rfl rfl
  ext other
  rw [mem_keys_view, View.drop, Finset.mem_erase, mem_keys_view, has, find?_erase]
  split <;> simp_all [has]

theorem view_markUsed (use : Use) : (c.markUsed key use).view = c.view := by
  refine View.ext rfl ?_ rfl rfl
  rw [view, keys_markUsed]
  rfl

theorem view_forgetGlobal : (c.forgetGlobal key).view = c.view.forget key := by
  refine View.ext rfl rfl rfl ?_
  ext other
  rw [mem_globals_view, View.forget, Finset.mem_erase, mem_globals_view]
  simp only [isGlobal, forgetGlobal, any_eq_true, mem_filter, hasKey_iff,
    Bool.not_eq_true', Bool.eq_false_iff, ne_eq]
  constructor
  · rintro ⟨d, ⟨hd, hnot⟩, hkey⟩
    refine ⟨fun heq => hnot (heq ▸ hkey), d, hd, hkey⟩
  · rintro ⟨hne, d, hd, hkey⟩
    refine ⟨d, ⟨hd, fun hother => hne ?_⟩, hkey⟩
    exact Option.some.inj (hkey.symm.trans hother)

theorem view_bind_of_has (h : c.has key = true) : c.view.bind key = c.view := by
  rw [View.bind, Finset.insert_eq_of_mem (mem_keys_view.mpr h)]

theorem view_drop_of_not_has (h : c.has key = false) : c.view.drop key = c.view := by
  rw [View.drop, Finset.erase_eq_of_notMem]
  rw [mem_keys_view, h]
  simp

theorem exists_declare {name : Datum} (h : c.declareGlobal name = .ok declared) :
    ∃ key, name.key = .ok key ∧ declared.view = c.view.declare key := by
  obtain ⟨key, hkey, h⟩ := bind_eq_ok.mp h
  refine ⟨key, hkey, ?_⟩
  cases h
  split
  · rename_i hglobal
    rw [View.declare, Finset.insert_eq_of_mem (mem_globals_view.mpr hglobal)]
  · refine View.ext rfl rfl rfl ?_
    ext other
    rw [View.declare, Finset.mem_insert]
    simp [view, hkey, Except.toOption]

end Scope

namespace State

variable {s t : State} {id : ScopeId} {key : Datum.Key}

/-- The view of a scope. One that is not there looks like an empty class body. -/
def viewOf (s : State) (id : ScopeId) : View :=
  ((s.scope? id).getD ⟨.classBody, [], false, [], false⟩).view

def views (s : State) : List View := s.stack.map s.viewOf

theorem viewOf_of_scope {c : Scope} (h : s.scope? id = some c) : s.viewOf id = c.view := by
  rw [viewOf, h, Option.getD_some]

theorem kind_viewOf {kind : ScopeKind} (hkind : kind ≠ .classBody) :
    (s.viewOf id).kind = kind ↔ s.kindOf id = some kind := by
  unfold viewOf kindOf
  cases s.scope? id with
  | none =>
    have hne : ScopeKind.classBody ≠ kind := hkind.symm
    simpa [Scope.view] using hne
  | some c => simp [Scope.view]

theorem mem_keys_viewOf : key ∈ (s.viewOf id).keys ↔ (s.binding? id key).isSome = true := by
  unfold viewOf binding?
  rw [Scope.mem_keys_view]
  cases s.scope? id with
  | none => simp [Scope.has, Scope.find?]
  | some c => simp [Scope.has]

theorem starred_viewOf : (s.viewOf id).starred = s.isStarred id := by
  unfold viewOf isStarred
  cases s.scope? id <;> rfl

theorem isLending_viewOf : (s.viewOf id).isLending = s.isLending id := by
  have hiff {kind : ScopeKind} (hkind : kind ≠ .classBody) :
      ((s.viewOf id).kind == kind) = (s.kindOf id == some kind) := by
    rw [Bool.eq_iff_iff, beq_iff_eq, beq_iff_eq]
    exact kind_viewOf hkind
  rw [View.isLending, isLending, hiff (by decide), hiff (by decide)]

theorem keys_viewOf_eq_empty : (s.viewOf id).keys = ∅ ↔ s.isEmptyScope id = true := by
  unfold viewOf isEmptyScope
  rw [Scope.keys_view_eq_empty]
  cases s.scope? id <;> simp

/-- The first of some items that are picked is the first of all if that one is picked. -/
theorem head_filter_eq_iff {α : Type} {p : α → Bool} {x y : α} {xs ys : List α}
    (h : (x :: xs).filter p = y :: ys) : y = x ↔ p x = true := by
  cases hx : p x with
  | true =>
    rw [filter_cons_of_pos hx] at h
    simpa using (cons.inj h).1.symm
  | false =>
    have hmem : y ∈ (x :: xs).filter p := by simp [h]
    have hpicked := (mem_filter.mp hmem).2
    simp only [Bool.false_eq_true, iff_false]
    rintro rfl
    rw [hx] at hpicked
    cases hpicked

/-- The scopes that a look-up goes through are known by the views of the open scopes. -/
theorem visible_views {visible : List ScopeId} (h : s.visibleScopes = .ok visible) :
    View.visible s.views = some (visible.map s.viewOf) := by
  unfold visibleScopes at h
  cases hstack : s.stack with
  | nil =>
    rw [hstack] at h
    cases h
  | cons top outer =>
    have hfilter : (outer.map s.viewOf).filter View.isLending =
        (outer.filter s.isLending).map s.viewOf := by
      rw [filter_map]
      congr 2
      funext i
      exact isLending_viewOf
    simp only [hstack] at h
    simp only [views, hstack, map_cons, View.visible, hfilter, kind_viewOf (by decide :
      ScopeKind.generator ≠ .classBody)]
    split
    · rename_i hgenerator
      rw [if_pos hgenerator] at h
      cases hlending : outer.filter s.isLending with
      | nil =>
        simp [hlending] at h
      | cons nearest more =>
        cases outer with
        | nil => cases hlending
        | cons below rest =>
          have hnearest := head_filter_eq_iff hlending
          simp only [hlending, hnearest, ← @isLending_viewOf s below,
            ← keys_viewOf_eq_empty] at h
          simp only [map_cons]
          split at h
          · rename_i hcond
            cases h
            rw [if_pos hcond]
            rfl
          · rename_i hcond
            cases h
            rw [if_neg hcond]
            rfl
    · rename_i hgenerator
      rw [if_neg hgenerator] at h
      cases h
      rfl

theorem viewOf_modified {f : Scope → Scope} {g : View → View} (h : t.scopes = s.scopes.modify id f)
    (hid : (s.scope? id).isSome = true) (hf : ∀ c, s.scope? id = some c → (f c).view = g c.view)
    (other : ScopeId) : t.viewOf other = if other = id then g (s.viewOf id) else s.viewOf other := by
  obtain ⟨c, hc⟩ := Option.isSome_iff_exists.mp hid
  unfold viewOf
  rw [scope?_modified h]
  split
  · rw [hc]
    exact hf c hc
  · rfl

theorem viewOf_of_scopes (h : t.scopes = s.scopes) : t.viewOf = s.viewOf := by
  funext id
  rw [viewOf, viewOf, scope?, scope?, h]

end State

end ScopeLint
