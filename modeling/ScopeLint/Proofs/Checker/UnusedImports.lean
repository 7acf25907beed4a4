import ScopeLint.Proofs.Checker.Callee

/-! # Which imports are reported as unused

Nothing is said about unused imports before the closed scopes are judged, and then only about imports
that are left over. -/
namespace ScopeLint

open List

variable {cfg : Setup} {next : Nat} {s t : State} {args : List Datum}

theorem BindingKind.not_isStored_of_import {k : BindingKind} (h : k.isImportation = true) :
    k.isStored = false := by
  cases k with
  | importation => rfl
  | _ => cases h

section Runs

variable {code : String}

theorem State.mem_reportsOf {k : Kind} (h : .reported k args ∈ s.history)
    (hcode : k.hasCode code = true) : args ∈ s.reportsOf code :=
  mem_filterMap.mpr ⟨_, mem_reverse.mpr h, by simp [Event.argsOf?, hcode]⟩

theorem Moves.reportsOf_eq {on : List ScopeId → Prop} (h : Moves on s t)
    (hcode : ∀ k ∈ Kind.walked, k.hasCode code = false) : t.reportsOf code = s.reportsOf code := by
  obtain ⟨es, hes, hall⟩ := h.history fun _ _ _ => trivial
  exact State.reportsOf_eq_of_isIn hes hall hcode

/-- Before the closed scopes are judged, there are reports from walks and verdicts only. -/
theorem Run.reportsOf_eq (h : Run cfg next s) (hwalked : ∀ k ∈ Kind.walked, k.hasCode code = false)
    (hverdicts : ∀ k ∈ Kind.ofVerdicts, k.hasCode code = false) : s.reportsOf code = [] := by
  induction h with
  | start => rfl
  | walk h => exact h.moves.reportsOf_eq hwalked
  | close _ ih => exact ih
  | stroke _ h ih =>
    rw [← ih]
    cases h with
    | @body r u _ _ i d n names _ _ hparameters hcourse hfinish hpop =>
      obtain ⟨top, _, entries, -, -, rfl⟩ := Check.finishBody_eq_ok hfinish
      obtain ⟨id, rest, -, rfl⟩ := Check.popScope_eq_ok hpop
      have hes : ((u.finished n top entries (cfg.verdicts n)).closed id rest).history =
          [.body n top] ++ u.history := rfl
      rw [State.reportsOf_of_history hes]
      exact (append_nil _).trans ((moves_body hparameters hcourse).reportsOf_eq hwalked)
    | doctests _ h hp =>
      obtain ⟨id, rest, -, rfl⟩ := Check.popScope_eq_ok hp
      exact (moves_examples h).reportsOf_eq hwalked
    | idle _ => rfl
    | verdict _ _ h => exact h.reportsOf_eq hverdicts

end Runs

/-- Of a closed scope, only imports that are left over are reported as unused. -/
theorem Scope.exists_leftOver {scope : Scope}
    (h : .reported .unusedImport args ∈ scope.verdict cfg s) :
    ∃ b ∈ scope.leftOver, [s.datumOf b.source, b.name] = args := by
  rcases mem_append.mp h with h | h
  · obtain ⟨b, -, hmem⟩ := mem_flatMap.mp h
    obtain ⟨name, -, heq⟩ := mem_map.mp hmem
    cases congrArg (·.hasCode "E101") (Event.reported.inj heq).1
  · obtain ⟨b, hb, heq⟩ := mem_map.mp h
    exact ⟨b, hb, (Event.reported.inj heq).2⟩

namespace Check

/-- In a run that gets through, only imports that are left over are reported as unused, further
checkers apart. -/
theorem leftOver_of_reported (h : run cfg (State.initial next) = .ok () t)
    (hmem : .reported .unusedImport args ∈ t.history) :
    (∃ r ∈ cfg.remarked, r.event = .reported .unusedImport args) ∨
      ∃ later id key n b earlier d, t.history = later ++ .bound id key n b :: earlier ∧
        Meets t later (.bound id key n b) earlier .leftOver ∧ args = [d, b.name] ∧ d.IsOf n := by
  obtain ⟨s, u, -, hrun, hjudge, hremarks⟩ := run_eq_ok h
  obtain ⟨hspeech, hhistory⟩ := reportRemarks_eq_ok hremarks
  rcases mem_append.mp (hhistory ▸ hmem) with hremark | hjudged
  · obtain ⟨r, hr, hevent⟩ := mem_map.mp (mem_reverse.mp hremark)
    exact .inl ⟨r, hr, hevent⟩
  right
  rw [judgeDead_eq_ok hjudge] at hjudged
  have hnew : .reported .unusedImport args ∉ s.history := fun hin => by
    have hargs : args ∈ s.reportsOf "E101" := State.mem_reportsOf hin rfl
    rw [hrun.reportsOf_eq (by decide) (by decide)] at hargs
    cases hargs
  have hverdict := mem_reverse.mp ((mem_append.mp hjudged).resolve_right hnew)
  obtain ⟨scope, hclosed, hverdict⟩ := mem_flatMap.mp hverdict
  obtain ⟨id, -, hscope⟩ := mem_filterMap.mp hclosed
  obtain ⟨b, hleft, rfl⟩ := Scope.exists_leftOver hverdict
  obtain ⟨hb, hunused⟩ := mem_filter.mp hleft
  obtain ⟨hunused, -⟩ := Bool.and_eq_true_iff.mp hunused
  have hrecorded : t.Recorded := (recorded_run cfg next).ok h (State.recorded_initial next)
  have hscope : t.scope? id = some scope := by
    rw [State.scope?, hspeech.scopes_eq, (told_judgeDead.ok hjudge).scopes_eq]
    exact hscope
  obtain ⟨e, he, rfl⟩ := mem_map.mp hb
  have hkeys : scope.keys.Nodup := State.keys_of_scope? hscope ▸ hrecorded.keys_nodup id
  have hfind := Scope.find?_of_mem hkeys he
  have hbinding : t.binding? id e.key = some e.binding := by simp [State.binding?, hscope, hfind]
  rw [hrecorded.binding?_eq] at hbinding
  -- the statement that bound it, and no use since
  obtain ⟨later, n, b, earlier, hforce⟩ := exists_inForce hbinding
  have hreplayed := hforce.replayed_eq
  rw [hbinding, Option.some.injEq] at hreplayed
  obtain ⟨himport, hused⟩ : e.binding.kind.isImportation = true ∧ e.binding.used = none := by
    simpa [Binding.isUnusedImport, Binding.isUsed] using hunused
  rw [hreplayed] at hused
  obtain ⟨hloads, hfresh⟩ := Option.or_eq_none_iff.mp hused
  have hsame : e.binding = b := by
    rw [hreplayed, hloads, Option.none_or]
  have hstored : b.kind.isStored = false := BindingKind.not_isStored_of_import (hsame ▸ himport)
  have hchronicle := hrecorded.chronicle
  rw [hforce.split] at hchronicle
  have hsource : b.source = .node n := hchronicle.sound.1.source_eq hstored
  rw [hsame] at hfind hmem
  rw [hsource] at hmem
  have hnot : ¬ UsedDuring id e.key b later := by
    rintro (hsome | ⟨use, huse⟩)
    · rw [hfresh] at hsome
      cases hsome
    · exact findSome?_useOf?_eq_none.mp hloads use huse
  refine ⟨later, id, e.key, n, b, earlier, s.atEnd.datumOf (.node n), hforce.split, ?_, ?_, ?_⟩
  · exact .leftOver (.on hforce.stays) hnot hscope hfind (.inr ⟨_, hmem, s.atEnd.isOf_datumOf n⟩)
  · rw [hsame, hsource]
  · exact s.atEnd.isOf_datumOf n

end Check

end ScopeLint
