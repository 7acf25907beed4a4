import ScopeLint.Proofs.Checker.Resolution

/-! # What it means that a binding is used

A name in a scope counts as used if a load has found it there since it was bound afresh, or if it was
then imported as a feature to come. A store to a name that is bound already does not bind it afresh. -/
namespace ScopeLint

variable {s : State} {id : ScopeId} {key : Datum.Key} {b : Binding}

/-- Whether the name is bound afresh by `b`, where `old` has been so far: a store to a name that is
there carries on what was known of it, everything else starts anew. -/
def Binding.startsAnew (old : Option Binding) (b : Binding) : Bool :=
  !b.kind.isStored || old.isNone

namespace Event

/-- Whether the event, after the earlier ones, binds the name afresh. -/
def Renews (id : ScopeId) (key : Datum.Key) (earlier : List Event) : Event → Prop
  | .bound i k _ b => i = id ∧ k = key ∧ b.startsAnew (replayed id key earlier) = true
  | _ => False

end Event

/-- The record `h` is `earlier`, then the last binding of the name afresh, and then `later`. -/
structure LastRenewal (h : List Event) (id : ScopeId) (key : Datum.Key) (later : List Event)
    (n : Node) (b : Binding) (earlier : List Event) : Prop where
  split : h = later ++ .bound id key n b :: earlier
  fresh : b.startsAnew (replayed id key earlier) = true
  last : ∀ after e before, later = after ++ e :: before →
    ¬ e.Renews id key (before ++ .bound id key n b :: earlier)

section Renewal

variable {h later earlier : List Event} {n : Node} {e : Event} {old : Option Binding}

theorem LastRenewal.cons (hr : LastRenewal h id key later n b earlier)
    (he : ¬ e.Renews id key h) : LastRenewal (e :: h) id key (e :: later) n b earlier where
  split := by rw [hr.split, List.cons_append]
  fresh := hr.fresh
  last := by
    intro after e' before hlater
    cases after with
    | nil =>
      obtain ⟨rfl, rfl⟩ := List.cons.inj hlater
      rwa [← hr.split]
    | cons first after =>
      obtain ⟨-, hlater⟩ := List.cons.inj hlater
      exact hr.last after e' before hlater

/-- What is bound afresh is used only if it is imported as a feature to come. -/
theorem Binding.MadeAt.used_of_startsAnew (hmade : b.MadeAt n old)
    (hfresh : b.startsAnew old = true) :
    b.used.isSome = true ↔ b.kind.isImportation = true ∧ n.isFutureImport = true := by
  cases hmade with
  | stated hstated =>
    cases hstated with
    | function | classDefinition => simp [Binding.fresh, BindingKind.isImportation]
    | importation full used hused =>
      simp [Binding.importation, Binding.fresh, BindingKind.isImportation, hused]
  | parameter => simp [Binding.fresh, BindingKind.isImportation]
  | stored name kind source hstored =>
    have hnone : old = none := by simpa [Binding.startsAnew, hstored] using hfresh
    cases kind with
    | plain | assignment | exported => simp [hnone, BindingKind.isImportation]
    | _ => cases hstored

theorem Binding.MadeAt.used_eq (hmade : b.MadeAt n old) (hfresh : b.startsAnew old = false) :
    ∃ o, old = some o ∧ b.used = o.used := by
  simp only [Binding.startsAnew, Bool.or_eq_false_iff, Bool.not_eq_false'] at hfresh
  obtain ⟨hstored, hold⟩ := hfresh
  obtain ⟨o, rfl⟩ : ∃ o, old = some o := Option.isSome_iff_exists.mp (by simpa using hold)
  refine ⟨o, rfl, ?_⟩
  cases hmade with
  | stated hstated => cases hstated <;> cases hstored
  | parameter => cases hstored
  | stored => rfl

theorem LastRenewal.append {es : List Event} (hr : LastRenewal h id key later n b earlier)
    (hes : ∀ after e before, es = after ++ e :: before → ¬ e.Renews id key (before ++ h)) :
    LastRenewal (es ++ h) id key (es ++ later) n b earlier := by
  induction es with
  | nil => exact hr
  | cons e es ih =>
    refine (ih fun after e' before hsplit => ?_).cons (hes [] e es rfl)
    exact hes (e :: after) e' before (by rw [hsplit, List.cons_append])

/-- The flag of a binding is the latest use since the name was bound afresh. -/
theorem Chronicle.exists_lastRenewal (hc : Chronicle s h) (hb : replayed id key h = some b) :
    ∃ later n b₀ earlier, LastRenewal h id key later n b₀ earlier ∧
      b₀.MadeAt n (replayed id key earlier) ∧
      b.used = (later.findSome? (Event.useOf? id key)).or b₀.used := by
  -- from the binding in force to the one that it carries on, down to one that starts anew
  induction hlength : h.length using Nat.strongRecOn generalizing h b with
  | _ length ih =>
    obtain ⟨later, n, b₁, earlier, hin⟩ := exists_inForce hb
    cases hb.symm.trans hin.replayed_eq
    obtain ⟨rfl, hstays⟩ := hin
    have hlater (after : List Event) (e : Event) (before : List Event)
        (hsplit : later = after ++ e :: before) :
        ¬ e.Renews id key (before ++ .bound id key n b₁ :: earlier) := by
      have hstay := hstays e (by simp [hsplit])
      cases e with
      | bound i k =>
        rintro ⟨rfl, rfl, -⟩
        simp [Event.ousts] at hstay
      | _ => exact fun h => h
    have hmade := hc.sound.1
    cases hfresh : b₁.startsAnew (replayed id key earlier) with
    | true => exact ⟨later, n, b₁, earlier, ⟨rfl, hfresh, hlater⟩, hmade, rfl⟩
    | false =>
      obtain ⟨o, ho, hsame⟩ := hmade.used_eq hfresh
      have hlt : earlier.length < length := by
        rw [← hlength]
        simp
        omega
      obtain ⟨since, m, b₀, before, hr, hmade₀, hused⟩ := ih _ hlt hc.suffix.2 ho rfl
      have hbound : ¬ (Event.bound id key n b₁).Renews id key earlier := by
        simp [Event.Renews, hfresh]
      refine ⟨later ++ .bound id key n b₁ :: since, m, b₀, before, (hr.cons hbound).append hlater,
        hmade₀, ?_⟩
      rw [hsame, hused, List.findSome?_append, Option.or_assoc]
      rfl

end Renewal

/-- At the time when the record was `h`: a name was used exactly if, since it was last bound afresh, a
load had found it in its scope, or if it had then been imported as a feature to come. The latest load
says where it was used. -/
def UsedTells (h : List Event) : Prop :=
  ∀ id key b, replayed id key h = some b → ∃ later n b₀ earlier,
    LastRenewal h id key later n b₀ earlier ∧
    (b.used.isSome = true ↔ (b₀.kind.isImportation = true ∧ n.isFutureImport = true) ∨
      ∃ use, .loaded id key use ∈ later) ∧
    ∀ after use before, later = after ++ .loaded id key use :: before →
      (∀ use', .loaded id key use' ∉ after) → b.used = some use

theorem Chronicle.usedTells {h : List Event} (hc : Chronicle s h) : UsedTells h := by
  intro id key b hb
  obtain ⟨later, n, b₀, earlier, hr, hmade, hused⟩ := hc.exists_lastRenewal hb
  refine ⟨later, n, b₀, earlier, hr, ?_, ?_⟩
  · rw [← hmade.used_of_startsAnew hr.fresh, hused]
    cases hloads : later.findSome? (Event.useOf? id key) with
    | none =>
      have hnone := findSome?_useOf?_eq_none.mp hloads
      simp [hnone]
    | some use =>
      have hsome : ∃ use, .loaded id key use ∈ later := by
        refine Classical.byContradiction fun hno => ?_
        rw [findSome?_useOf?_eq_none.mpr fun use hmem => hno ⟨use, hmem⟩] at hloads
        cases hloads
      simp [hsome]
  · rintro after use before rfl hafter
    rw [hused, List.findSome?_append, findSome?_useOf?_eq_none.mpr hafter]
    simp [Event.useOf?]

/-- The scopes hold what the record tells, and at every time on record the used names were those that
had been loaded since they were bound afresh, and features to come. -/
def State.UsedTold (s : State) : Prop :=
  (∀ id key, s.binding? id key = replayed id key s.history) ∧
    ∀ later earlier, s.history = later ++ earlier → UsedTells earlier

theorem State.Recorded.usedTold (h : s.Recorded) : s.UsedTold := by
  refine ⟨h.binding?_eq, fun later earlier hsplit => ?_⟩
  have hc := h.chronicle
  rw [hsplit] at hc
  exact hc.suffix.usedTells

/-- A used binding of a scope has been loaded since it was bound afresh, or is a feature to come. -/
theorem State.UsedTold.exists_of_used (h : s.UsedTold) (hb : s.binding? id key = some b)
    (hused : b.used.isSome = true) :
    ∃ later n b₀ earlier, LastRenewal s.history id key later n b₀ earlier ∧
      ((b₀.kind.isImportation = true ∧ n.isFutureImport = true) ∨
        ∃ use, .loaded id key use ∈ later) := by
  rw [h.1] at hb
  obtain ⟨later, n, b₀, earlier, hr, hiff, -⟩ := h.2 [] s.history rfl id key b hb
  exact ⟨later, n, b₀, earlier, hr, hiff.mp hused⟩

namespace Check

/-- At every moment of a run, and when it has ended, the flags of all bindings tell of the loads since
the names were bound afresh. -/
theorem used_iff_loaded_since_fresh (cfg : Setup) (next : Nat) :
    (∀ stop, (reached cfg stop next).UsedTold) ∧ (ended cfg next).UsedTold :=
  ⟨fun stop => (recorded_reached cfg stop next).usedTold, (recorded_ended cfg next).usedTold⟩

end Check

namespace Sample

/-- The name is loaded between two stores. -/
def restored : Setup := setup [assign 1 "x", name 2 "x" "Load", assign 3 "x"]

end Sample

namespace Check

open Sample

/-- The second store carries the flag on, so it tells of a load after the first. -/
theorem used_iff_loaded_since_fresh_restored :
    ∃ b, (ended restored restored.root.size).binding? 0 (.text "x") = some b ∧
      b.used.isSome = true ∧ ∃ later n b₀ earlier,
        LastRenewal (ended restored restored.root.size).history 0 (.text "x") later n b₀ earlier ∧
        ((b₀.kind.isImportation = true ∧ n.isFutureImport = true) ∨
          ∃ use, .loaded 0 (.text "x") use ∈ later) := by
  have hused : ((ended restored restored.root.size).binding? 0 (.text "x")).any
      (·.used.isSome) = true := by decide +kernel
  obtain ⟨b, hb, hused⟩ := (Option.any_eq_true _ _).mp hused
  obtain ⟨-, htold⟩ := used_iff_loaded_since_fresh restored restored.root.size
  exact ⟨b, hb, hused, htold.exists_of_used hb hused⟩

end Check

end ScopeLint
