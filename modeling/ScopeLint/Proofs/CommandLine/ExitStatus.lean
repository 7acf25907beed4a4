import Mathlib.Algebra.GroupWithZero.Nat
import ScopeLint.CommandLine.Run
import ScopeLint.Proofs.Session.Independence

/-! # What the exit of the command tells

The command makes its checks one after another, each in the session and with the overrides that the one
before it has left, and counts their warnings. Its exit tells whether there were any, but the warnings
about the standard input are not counted. -/
namespace ScopeLint

variable {paths : List String} {overrides : Settings} {s t : Session} {total : Nat}

namespace Work

/-- Checks of files that are made one after another, with the number of warnings that each returns. -/
inductive Tally (one : String → Settings → Work (Nat × Settings)) :
    List String → Settings → Session → List Nat → Session → Prop where
  | done (overrides : Settings) (s : Session) : Tally one [] overrides s [] s
  | next {path : String} {rest : List String} {overrides kept : Settings} {s t u : Session}
      {count : Nat} {counts : List Nat} : one path overrides s = .ok (count, kept) t →
      Tally one rest kept t counts u → Tally one (path :: rest) overrides s (count :: counts) u

variable {one other : String → Settings → Work (Nat × Settings)}

theorem exists_checkEach_iff :
    (∃ kept, checkEach one paths overrides s = .ok (total, kept) t) ↔
      ∃ counts, Tally one paths overrides s counts t ∧ counts.sum = total := by
  induction paths generalizing overrides s total with
  | nil =>
    constructor
    · rintro ⟨kept, h⟩
      cases h
      exact ⟨[], .done _ _, rfl⟩
    · rintro ⟨counts, h, rfl⟩
      cases h
      exact ⟨overrides, rfl⟩
  | cons path rest ih =>
    constructor
    · rintro ⟨kept, h⟩
      obtain ⟨⟨count, after⟩, r, hone, h⟩ := bind_apply_eq_ok.mp h
      obtain ⟨⟨more, last⟩, u, hrest, h⟩ := bind_apply_eq_ok.mp h
      cases h
      obtain ⟨counts, hcounts, rfl⟩ := ih.mp ⟨_, hrest⟩
      exact ⟨count :: counts, .next hone hcounts, List.sum_cons⟩
    · rintro ⟨counts, h, rfl⟩
      cases h with
      | next hone hrest =>
        obtain ⟨kept, hkept⟩ := ih.mpr ⟨_, hrest, rfl⟩
        refine ⟨kept, bind_apply_eq_ok.mpr ⟨_, _, hone, ?_⟩⟩
        exact bind_apply_eq_ok.mpr ⟨_, _, hkept, by rw [List.sum_cons]; rfl⟩

theorem Tally.congr {counts : List Nat} (hone : ∀ path overrides s r t,
      one path overrides s = .ok r t → other path overrides s = .ok r t)
    (h : Tally one paths overrides s counts t) : Tally other paths overrides s counts t := by
  induction h with
  | done => exact .done _ _
  | next hfirst _ ih => exact .next (hone _ _ _ _ _ hfirst) ih

end Work

namespace CommandLine

variable {host : Host} {input : String} {a : Arguments}

/-- A check of a named file returns what the check of the file does; only its failures are told in
another way. -/
theorem checkNamed_eq_ok {path : String} {r : Nat × Settings} :
    checkNamed host path overrides s = .ok r t ↔
      Work.checkFile host path .null overrides s = .ok r t := by
  have hcatch : checkNamed host path overrides s =
      match Work.checkFile host path .null overrides s with
      | .ok r u => .ok r u
      | .error e u => .error (if isSystemFailure e then .unnamedFile else e) u := by
    simp only [checkNamed, tryCatch, tryCatchThe, MonadExceptOf.tryCatch]
    delta EStateM.tryCatch
    cases Work.checkFile host path .null overrides s <;> rfl
  rw [hcatch]
  cases Work.checkFile host path .null overrides s <;> simp

/-- No switch stands for an override that a check refuses. -/
theorem Arguments.overrides_allowed (a : Arguments) {names : List String}
    (h : ∀ name ∈ ["recursive", "skip", "run_doctests", Settings.ignoredKey,
      Settings.negation ++ Settings.ignoredKey, "verbose"], names.contains name = false) :
    (a.overrides.any fun e => names.contains e.1) = false := by
  rw [List.any_eq_false]
  intro e he
  have hname : e.1 ∈ ["recursive", "skip", "run_doctests", Settings.ignoredKey,
      Settings.negation ++ Settings.ignoredKey, "verbose"] := by
    have hgiven := (List.mem_filter.mp he).1
    simp only [List.mem_cons, List.not_mem_nil, or_false] at hgiven
    rcases hgiven with rfl | rfl | rfl | rfl | rfl | rfl <;> simp
  rw [h e.1 hname]
  exact Bool.false_ne_true

namespace Arguments

/-- The files that are checked: those that are named, or those that are found below them. -/
def targets (a : Arguments) (host : Host) (files : FileTree) : List String :=
  if a.recursive then files.sources host.cwd a.files else a.files

/-- The overrides for the first of them. -/
def terms (a : Arguments) : Settings :=
  if a.recursive then a.overrides
  else ("directly_being_checked", .int a.files.length) :: a.overrides

/-- The checks that the command makes, with the number of warnings that each returns: one of the
standard input, or one of each file. -/
def Makes (a : Arguments) (host : Host) (input : String) (s : Session) (counts : List Nat)
    (t : Session) : Prop :=
  if a.files = ["-"] then ∃ count kept, counts = [count] ∧
    Work.check host input (.text inputName) .null a.overrides s = .ok (count, kept) t
  else Work.Tally (fun path => Work.checkFile host path .null) (a.targets host s.files) a.terms s
    counts t

end Arguments

theorem checkAll_eq_ok :
    (∃ kept, Work.checkAll host a.files .null a.overrides s = .ok (total, kept) t) ↔
      ∃ counts, Work.Tally (fun path => Work.checkFile host path .null)
        (s.files.sources host.cwd a.files) a.overrides s counts t ∧ counts.sum = total := by
  have hallowed : Work.checkOverrides ["paths"] a.overrides s = .ok () s := by
    rw [Work.checkOverrides, a.overrides_allowed (by decide)]
    rfl
  have hall : Work.checkAll host a.files .null a.overrides s = Work.checkEach
      (fun path => Work.checkFile host path .null) (s.files.sources host.cwd a.files) a.overrides
        s := by
    simp [Work.checkAll, hallowed]
  rw [hall]
  exact Work.exists_checkEach_iff

theorem checkEach_named_eq_ok :
    (∃ kept, Work.checkEach (checkNamed host) paths overrides s = .ok (total, kept) t) ↔
      ∃ counts, Work.Tally (fun path => Work.checkFile host path .null) paths overrides s counts
        t ∧ counts.sum = total := by
  rw [Work.exists_checkEach_iff]
  constructor
  · rintro ⟨counts, h, rfl⟩
    exact ⟨counts, h.congr fun _ _ _ _ _ => checkNamed_eq_ok.mp, rfl⟩
  · rintro ⟨counts, h, rfl⟩
    exact ⟨counts, h.congr fun _ _ _ _ _ => checkNamed_eq_ok.mpr, rfl⟩

/-- The number that the exit is decided by: all warnings, or none for the standard input. -/
theorem checkRequested_eq_ok : checkRequested host input a s = .ok total t ↔
    ∃ counts, a.Makes host input s counts t ∧
      total = if a.files = ["-"] then 0 else counts.sum := by
  have hpair {x : Work (Nat × Settings)} :
      (x >>= fun r => pure r.1 : Work Nat) s = .ok total t ↔ ∃ kept, x s = .ok (total, kept) t := by
    rw [bind_apply_eq_ok]
    constructor
    · rintro ⟨⟨n, kept⟩, u, hx, h⟩
      cases h
      exact ⟨kept, hx⟩
    · rintro ⟨kept, hx⟩
      exact ⟨_, t, hx, rfl⟩
  simp only [checkRequested, Arguments.Makes, Arguments.targets, Arguments.terms]
  by_cases hinput : a.files = ["-"]
  · simp only [if_pos hinput]
    constructor
    · intro h
      obtain ⟨⟨count, kept⟩, u, hcheck, h⟩ := bind_apply_eq_ok.mp h
      cases h
      exact ⟨[count], ⟨count, kept, rfl, hcheck⟩, rfl⟩
    · rintro ⟨counts, ⟨count, kept, rfl, hcheck⟩, rfl⟩
      exact bind_apply_eq_ok.mpr ⟨_, _, hcheck, rfl⟩
  · simp only [if_neg hinput]
    have hsum (counts : List Nat) : total = counts.sum ↔ counts.sum = total := eq_comm
    simp only [hsum]
    by_cases hrecursive : a.recursive = true
    · simp only [if_pos hrecursive]
      exact hpair.trans checkAll_eq_ok
    · simp only [if_neg hrecursive]
      exact hpair.trans checkEach_named_eq_ok

/-- The command ends after its checks exactly if its arguments can be read and every check returns.
Its exit then tells that there were warnings if the counts of the checks add up to more than nothing,
unless it was the standard input that was checked: then it never tells so. -/
theorem run_eq_checked_iff (host : Host) (arguments : List String) (input : String)
    (s t : Session) (warned : Bool) :
    run host arguments input s = .ok (.checked warned) t ↔
      ∃ a counts, read arguments = .ok (.run a) ∧ a.Makes host input s counts t ∧
        (warned = true ↔ a.files ≠ ["-"] ∧ 0 < counts.sum) := by
  have hexit (a : Arguments) (counts : List Nat) :
      (warned = true ↔ a.files ≠ ["-"] ∧ 0 < counts.sum) ↔
        decide (0 < if a.files = ["-"] then 0 else counts.sum) = warned := by
    by_cases hinput : a.files = ["-"] <;> cases warned <;> simp [hinput]
  simp only [hexit]
  unfold run
  cases hread : read arguments with
  | error e =>
    constructor
    · intro h
      cases h
    · rintro ⟨a, counts, ha, -⟩
      cases ha
  | ok reading =>
    cases reading with
    | help | version =>
      constructor
      · intro h
        cases h
      · rintro ⟨a, counts, ha, -⟩
        cases ha
    | run a =>
      dsimp only
      rw [bind_apply_eq_ok]
      constructor
      · rintro ⟨total, u, htotal, h⟩
        obtain ⟨counts, hmakes, rfl⟩ := checkRequested_eq_ok.mp htotal
        cases h
        exact ⟨a, counts, rfl, hmakes, rfl⟩
      · rintro ⟨_, counts, ha, hmakes, rfl⟩
        cases ha
        exact ⟨_, t, checkRequested_eq_ok.mpr ⟨counts, hmakes, rfl⟩, rfl⟩

/-- A source with a warning from the standard input: the check counts it, and the exit does not
tell. -/
theorem exit_of_warned_input :
    let host := Call.Example.host
    (Work.outcome (run host ["-"] "import os\n") (Session.initial .empty)).1.toOption =
        some (.checked false) ∧
      (Work.outcome (Work.check host "import os\n" (.text inputName) .null [])
        (Session.initial .empty)).1.toOption.map Prod.fst = some 1 := by
  decide +kernel

end CommandLine

end ScopeLint
