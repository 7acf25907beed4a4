import Mathlib.Logic.ExistsUnique
import ScopeLint.Proofs.Checker.Closing
import ScopeLint.Proofs.Checker.CommonAncestor
import ScopeLint.Proofs.Checker.Resolution

/-! # What becomes of imports

In a run that gets through, an import gives way to a definition, or it is used, deleted, replaced or
left over, and only one of these. What gives way, is replaced or is left over has been reported, up
to the exceptions that `Meets` lists. -/
namespace ScopeLint

open List

namespace Event

/-- What is to be bound at the event, whether it is then bound or gives way. -/
def attempted? : Event → Option (Node × Binding)
  | .bound _ _ n b | .refused _ _ n b => some (n, b)
  | _ => none

end Event

/-- Of the events `later` than a binding, those `during` which it stayed in its scope, and the event
with which it went, if it did. -/
inductive Stay (id : ScopeId) (key : Datum.Key) : List Event → List Event → Option Event → Prop where
  | on {during} : (∀ e ∈ during, e.ousts id key = false) → Stay id key during during none
  | left {e during} (rest : List Event) : e.ousts id key = true →
      (∀ x ∈ during, x.ousts id key = false) → Stay id key (rest ++ e :: during) during (some e)

namespace Stay

variable {id : ScopeId} {key : Datum.Key} {later during during' : List Event}
  {ouster ouster' : Option Event}

theorem exists_stay (id : ScopeId) (key : Datum.Key) (later : List Event) :
    ∃ during ouster, Stay id key later during ouster := by
  induction later with
  | nil => exact ⟨[], none, .on (by simp)⟩
  | cons e later ih =>
    obtain ⟨during, ouster, hstay⟩ := ih
    cases hstay with
    | on hduring =>
      cases he : e.ousts id key with
      | true => exact ⟨later, some e, Stay.left [] he hduring⟩
      | false => exact ⟨e :: later, none, .on (forall_mem_cons.mpr ⟨he, hduring⟩)⟩
    | left rest he' hduring =>
      exact ⟨during, some _, Stay.left (e :: rest) he' hduring⟩

theorem during_stays (h : Stay id key later during ouster) :
    ∀ e ∈ during, e.ousts id key = false := by
  cases h with
  | on hduring => exact hduring
  | left _ _ hduring => exact hduring

/-- Of two splits at an event that ousts the binding, the first is not the earlier one. -/
private theorem not_cons_of_split {e e' : Event} {more : List Event} (he : e.ousts id key = true)
    (hduring : ∀ x ∈ during', x.ousts id key = false) (hsplit : e' :: during' = more ++ e :: during) :
    e' = e ∧ during' = during := by
  cases more with
  | nil => exact cons.inj hsplit
  | cons x more =>
    obtain ⟨-, rfl⟩ := cons.inj hsplit
    have hno := hduring e (by simp)
    rw [he] at hno
    cases hno

theorem unique (h : Stay id key later during ouster) (k : Stay id key later during' ouster') :
    during = during' ∧ ouster = ouster' := by
  cases h with
  | on hduring =>
    cases k with
    | on => exact ⟨rfl, rfl⟩
    | left rest he' _ =>
      have hno := hduring _ (mem_append_right _ mem_cons_self)
      rw [he'] at hno
      cases hno
  | @left e during rest he hduring =>
    generalize hlater : rest ++ e :: during = l at k
    cases k with
    | on hduring' =>
      have hno := hduring' e (hlater ▸ mem_append_right _ mem_cons_self)
      rw [he] at hno
      cases hno
    | left rest' he' hduring' =>
      rcases append_eq_append_iff.mp hlater with ⟨more, -, hsplit⟩ | ⟨more, -, hsplit⟩
      · obtain ⟨rfl, rfl⟩ := not_cons_of_split he' hduring hsplit
        exact ⟨rfl, rfl⟩
      · obtain ⟨rfl, rfl⟩ := not_cons_of_split he hduring' hsplit
        exact ⟨rfl, rfl⟩

end Stay

/-- The binding was used from the start, or it was loaded while it stayed. -/
def UsedDuring (id : ScopeId) (key : Datum.Key) (b : Binding) (during : List Event) : Prop :=
  b.used.isSome = true ∨ ∃ use, .loaded id key use ∈ during

/-- What becomes of an import. -/
inductive Fate where
  | gaveWay
  | used
  | deleted
  | replaced
  | leftOver
  deriving DecidableEq

/-- Both are imports, and not of the same thing. -/
def Binding.ImportsOther (b old : Binding) : Prop :=
  ∃ full other, b.kind = .importation full ∧ old.kind = .importation other ∧ full ≠ other

/-- What became of the import that was to be bound at an event, by the end `t` of the run. -/
inductive Meets (t : State) (later : List Event) : Event → List Event → Fate → Prop where
  /-- An unused definition on the same branch was there, and this was reported. -/
  | gaveWay {id key n b earlier o m} : replayed id key earlier = some o →
      o.isUnusedDefinition = true → o.source = .node m → .compared n m false ∈ notesOf earlier →
      ToldOf (notesOf earlier) n m b.name → Meets t later (.refused id key n b) earlier .gaveWay
  | used {id key n b earlier during ouster} : Stay id key later during ouster →
      UsedDuring id key b during → Meets t later (.bound id key n b) earlier .used
  | deleted {id key n b earlier during} : Stay id key later during (some (.deleted id key)) →
      ¬ UsedDuring id key b during → Meets t later (.bound id key n b) earlier .deleted
  /-- This was reported, or the two were found on branches that exclude each other, unless it
  happened in the body of a class or by an import of something else. -/
  | replaced {id key n b earlier during m new} :
      Stay id key later during (some (.bound id key m new)) → ¬ UsedDuring id key b during →
      t.kindOf id = some .classBody ∨ new.ImportsOther b ∨
        AccountedFor (notesOf (during ++ .bound id key n b :: earlier)) m n new.name →
      Meets t later (.bound id key n b) earlier .replaced
  /-- This was reported, unless the import is exported. -/
  | leftOver {id key n b earlier scope} : Stay id key later later none →
      ¬ UsedDuring id key b later → t.scope? id = some scope → scope.find? key = some b →
      scope.Exports b.name ∨ ToldUnused t.history n b.name →
      Meets t later (.bound id key n b) earlier .leftOver

variable {t s : State} {later earlier : List Event} {id : ScopeId} {key : Datum.Key} {n : Node}
  {b : Binding}

/-- An import meets one fate only. -/
theorem Meets.unique {e : Event} {f g : Fate} (hf : Meets t later e earlier f)
    (hg : Meets t later e earlier g) : f = g := by
  cases hf with
  | gaveWay =>
    cases hg with
    | gaveWay => rfl
  | used hstay hused =>
    cases hg with
    | used => rfl
    | deleted hstay' hunused | replaced hstay' hunused _ | leftOver hstay' hunused _ _ _ =>
      obtain ⟨rfl, -⟩ := hstay.unique hstay'
      exact absurd hused hunused
  | deleted hstay hunused =>
    cases hg with
    | used hstay' hused =>
      obtain ⟨rfl, -⟩ := hstay.unique hstay'
      exact absurd hused hunused
    | deleted => rfl
    | replaced hstay' | leftOver hstay' => cases (hstay.unique hstay').2
  | replaced hstay hunused =>
    cases hg with
    | used hstay' hused =>
      obtain ⟨rfl, -⟩ := hstay.unique hstay'
      exact absurd hused hunused
    | replaced => rfl
    | deleted hstay' | leftOver hstay' => cases (hstay.unique hstay').2
  | leftOver hstay hunused =>
    cases hg with
    | used hstay' hused =>
      obtain ⟨rfl, -⟩ := hstay.unique hstay'
      exact absurd hused hunused
    | leftOver => rfl
    | deleted hstay' | replaced hstay' => cases (hstay.unique hstay').2

section Sources

variable {h during : List Event} {o : Binding}

theorem Binding.MadeAt.source_eq {old : Option Binding} (hmade : b.MadeAt n old)
    (hkind : b.kind.isStored = false) : b.source = .node n := by
  cases hmade with
  | stated hstated => cases hstated <;> rfl
  | parameter => rfl
  | stored name kind source hstored => cases hkind.symm.trans hstored

theorem Chronicle.exists_source (hc : Chronicle s h) (hb : replayed id key h = some b)
    (hkind : b.kind.isStored = false) : ∃ n, b.source = .node n := by
  obtain ⟨later, n, b₀, earlier, hin⟩ := exists_inForce hb
  cases hb.symm.trans hin.replayed_eq
  obtain ⟨rfl, -⟩ := hin
  exact ⟨n, hc.sound.1.source_eq hkind⟩

/-- What is bound stays until something takes its place: it can only be used meanwhile. -/
theorem exists_replayed_of_stay (hstay : ∀ e ∈ during, e.ousts id key = false) :
    ∃ use, replayed id key (during ++ .bound id key n b :: earlier) =
        some { b with used := use } ∧
      ((∀ use, .loaded id key use ∉ during) → use = b.used) := by
  refine ⟨_, InForce.replayed_eq ⟨rfl, hstay⟩, fun hunused => ?_⟩
  rw [findSome?_useOf?_eq_none.mpr hunused, Option.none_or]

/-- An import that is not used yet hides nothing less than the same import. -/
theorem Check.importsOther_of_hides {new old : Binding} (hold : old.isUnusedImport = true)
    (h : hides new old = false) : new.ImportsOther old := by
  unfold hides at h
  rw [hold, Bool.true_and] at h
  split at h
  · rename_i full other hnew hold'
    exact ⟨full, other, hnew, hold', by simpa using h⟩
  · cases h

end Sources

theorem Scope.mem_bindings_of_find? {scope : Scope} (h : scope.find? key = some b) :
    b ∈ scope.bindings := by
  obtain ⟨e, he, rfl⟩ := Option.map_eq_some_iff.mp h
  exact mem_map_of_mem (mem_of_find?_eq_some he)

namespace Check

variable {cfg : Setup} {next : Nat}

/-- An import that is unused at the end is exported from its scope, or it is reported. -/
theorem judged_of_run (h : run cfg (State.initial next) = .ok () t)
    (hb : t.binding? id key = some b) (hunused : b.isUnusedImport = true)
    (hsource : b.source = .node n) : ∃ scope, t.scope? id = some scope ∧
      scope.find? key = some b ∧ (scope.Exports b.name ∨ ToldUnused t.history n b.name) := by
  obtain ⟨s, u, -, hrun, hjudge, hremarks⟩ := run_eq_ok h
  have hspeech := (reportRemarks_eq_ok hremarks).1
  have hscopes : t.scopes = s.scopes :=
    hspeech.scopes_eq.trans (told_judgeDead.ok hjudge).scopes_eq
  obtain ⟨scope, hscope, hfind⟩ := Option.bind_eq_some_iff.mp hb
  have hscope' : s.atEnd.scope? id = some scope := by
    rwa [State.scope?, hscopes] at hscope
  have hdead : id ∈ s.atEnd.dead := by
    rcases Nat.eq_zero_or_pos id with rfl | hpos
    · exact Array.mem_push_self
    · obtain ⟨hid, -⟩ := Array.getElem?_eq_some_iff.mp hscope'
      exact Array.mem_push_of_mem _ (hrun.closed_of_pos id hpos hid)
  refine ⟨scope, hscope, hfind, ?_⟩
  have hmem := Scope.mem_bindings_of_find? hfind
  cases hexported : Datum.among scope.exported b.name with
  | true => exact .inl (Scope.exports_of_among hexported)
  | false =>
    refine .inr ⟨_, hspeech.history_subset ?_, s.atEnd.isOf_datumOf n⟩
    have hleft : b ∈ scope.leftOver := by simp [Scope.leftOver, hmem, hunused, hexported]
    have hclosed := mem_filterMap.mpr ⟨id, Array.mem_toList_iff.mpr hdead, hscope'⟩
    rw [judgeDead_eq_ok hjudge, ← hsource]
    refine mem_append_left _ (mem_reverse.mpr (mem_flatMap.mpr ⟨scope, hclosed, ?_⟩))
    exact mem_append_right _ (mem_map.mpr ⟨b, hleft, rfl⟩)

theorem meets_of_refused (hc : Chronicle t t.history)
    (hsplit : t.history = later ++ .refused id key n b :: earlier) :
    Meets t later (.refused id key n b) earlier .gaveWay := by
  rw [hsplit] at hc
  obtain ⟨o, ho, hunused, hnotes⟩ := hc.sound
  have hkind : o.kind.isStored = false := by
    unfold Binding.isUnusedDefinition at hunused
    cases hk : o.kind <;> simp_all [BindingKind.isDefinition, BindingKind.isStored]
  obtain ⟨m, hm⟩ := hc.suffix.2.exists_source ho hkind
  obtain ⟨hcompared, htold⟩ := hnotes m hm
  exact .gaveWay ho hunused hm hcompared htold

theorem exists_meets_of_bound (h : run cfg (State.initial next) = .ok () t)
    (hsplit : t.history = later ++ .bound id key n b :: earlier)
    (himport : b.kind.isImportation = true) : ∃ f, Meets t later (.bound id key n b) earlier f := by
  have hrecorded : t.Recorded := (recorded_run cfg next).ok h (State.recorded_initial next)
  have hc := hrecorded.chronicle
  rw [hsplit] at hc
  have hstored : b.kind.isStored = false := by
    cases hk : b.kind <;> simp_all [BindingKind.isImportation, BindingKind.isStored]
  have hsource : b.source = .node n := hc.sound.1.source_eq hstored
  obtain ⟨during, ouster, hstay⟩ := Stay.exists_stay id key later
  by_cases hused : UsedDuring id key b during
  · exact ⟨.used, .used hstay hused⟩
  obtain ⟨hfresh, hloads⟩ := not_or.mp hused
  have hunused : b.isUnusedImport = true := by
    simp [Binding.isUnusedImport, himport, Binding.isUsed, hfresh]
  have hheld : replayed id key (during ++ .bound id key n b :: earlier) = some b := by
    obtain ⟨use, hheld, huse⟩ := exists_replayed_of_stay hstay.during_stays
    rw [hheld, huse fun use hmem => hloads ⟨use, hmem⟩]
  cases hstay with
  | on hduring =>
    have hb : t.binding? id key = some b := by rw [hrecorded.binding?_eq, hsplit, hheld]
    obtain ⟨scope, hscope, hfind, hjudged⟩ := judged_of_run h hb hunused hsource
    exact ⟨.leftOver, .leftOver (.on hduring) hused hscope hfind hjudged⟩
  | @left e during rest he hduring =>
    cases e with
    | bound i k m new =>
      obtain ⟨rfl, rfl⟩ : i = id ∧ k = key := by simpa [Event.ousts] using he
      rw [append_assoc, cons_append] at hc
      obtain ⟨-, hhides⟩ := hc.sound
      refine ⟨.replaced, .replaced (.left rest he hduring) hused ?_⟩
      refine (hhides b n hheld hunused hsource).imp_right (Or.imp_left ?_)
      exact importsOther_of_hides hunused
    | deleted i k =>
      obtain ⟨rfl, rfl⟩ : i = id ∧ k = key := by simpa [Event.ousts] using he
      exact ⟨.deleted, .deleted (.left rest he hduring) hused⟩
    | loaded | refused | compared | body | reported => cases he

/-- A statement that binds a name, or gives way, is on record with what it was to bind. -/
theorem attempted?_of_bind {reportsHidden : Bool} (h : bind cfg n b reportsHidden s = .ok () t) :
    ∃ e earlier, t.history = e :: earlier ∧ e.attempted? = some (n, b) := by
  obtain ⟨top, rest, key, r, es, -, -, -, -, -, hend⟩ := bind_eq_ok h
  rcases hend with ⟨rfl, -⟩ | ⟨rfl, -⟩
  · exact ⟨.bound top key n b, r.history, rfl, rfl⟩
  · exact ⟨.refused top key n b, r.history, rfl, rfl⟩

/-- Whatever a statement was to bind is on record, and in a run that gets through each import on
record meets exactly one fate. -/
theorem import_meets_one_fate (cfg : Setup) (next : Nat) (t : State)
    (h : run cfg (State.initial next) = .ok () t) :
    (∀ n b reportsHidden s s', bind cfg n b reportsHidden s = .ok () s' →
      ∃ e earlier, s'.history = e :: earlier ∧ e.attempted? = some (n, b)) ∧
    ∀ later e earlier n b, t.history = later ++ e :: earlier → e.attempted? = some (n, b) →
      b.kind.isImportation = true → ∃! f, Meets t later e earlier f := by
  refine ⟨fun n b reportsHidden s s' hbind => attempted?_of_bind hbind, ?_⟩
  intro later e earlier n b hsplit hattempt himport
  have hexists : ∃ f, Meets t later e earlier f := by
    cases e with
    | bound id key n' b' =>
      cases hattempt
      exact exists_meets_of_bound h hsplit himport
    | refused id key n' b' =>
      have hrecorded : t.Recorded := (recorded_run cfg next).ok h (State.recorded_initial next)
      exact ⟨.gaveWay, meets_of_refused hrecorded.chronicle hsplit⟩
    | loaded | deleted | compared | body | reported => cases hattempt
  obtain ⟨f, hf⟩ := hexists
  exact ⟨f, hf, fun g hg => hg.unique hf⟩

end Check

namespace Sample

/-- An import is replaced by a store before anything uses it. -/
def overwritten : Setup := setup [importName 1 "a", assign 2 "a"]

end Sample

namespace Check

open Sample

theorem import_meets_one_fate_overwritten :
    ∃ t later e earlier n b,
      run overwritten (State.initial overwritten.root.size) = .ok () t ∧
      t.history = later ++ e :: earlier ∧ e.attempted? = some (n, b) ∧
      b.kind.isImportation = true ∧ ∃! f, Meets t later e earlier f := by
  have hends : endsWith overwritten (·.history.any fun e =>
      e.attempted?.any (·.2.kind.isImportation)) = true := by decide +kernel
  obtain ⟨t, hrun, hany⟩ := endsWith_eq_true hends
  obtain ⟨e, he, himport⟩ := List.any_eq_true.mp hany
  obtain ⟨⟨n, b⟩, hattempt, himport⟩ := (Option.any_eq_true _ _).mp himport
  obtain ⟨later, earlier, hsplit⟩ := List.append_of_mem he
  have hfate := (import_meets_one_fate _ _ t hrun).2 later e earlier n b hsplit hattempt himport
  exact ⟨t, later, e, earlier, n, b, hrun, hsplit, hattempt, himport, hfate⟩

end Check

end ScopeLint
