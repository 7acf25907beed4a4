import ScopeLint.Proofs.Session.Keeping

/-! # What one check leaves behind for the next

A check answers and tells the same in every session that is still like a new one, and it leaves the
session like a new one unless it extends a list of what is ignored that is not its own. -/
namespace ScopeLint

open Settings Work

variable {s t : Session} {path : String} {settings : Settings}

/-- A source to check, and the overrides of the caller, who names no setting twice. -/
structure Call where
  code : String
  filename : Datum
  given : Datum
  overrides : Settings
  distinct : (overrides.map Prod.fst).Nodup

namespace Call

def perform (host : Host) (c : Call) : Work (Nat × Settings) :=
  check host c.code c.filename c.given c.overrides

/-- The settings in force for the call in a new session over the files, and the directory whose
configuration went into them. -/
def inForce (host : Host) (files : FileTree) (c : Call) : Except Failure (String × Settings) := do
  if c.overrides.any fun e => (["codeString", "filename"] ++ reservedOverrides).contains e.1 then
    throw (.fault .wrongType)
  let path ← (settingsPath host c.filename c.given).mapError .fault
  let configured ← configuredAt host files path
  let settings ← ((configured.withShared initiallyIgnored).override c.overrides).mapError
    .fault
  return (path, settings)

/-- What the call ignores in its file beyond what is ignored in general. -/
def added (host : Host) (files : FileTree) (c : Call) : List Datum :=
  match c.inForce host files, c.filename with
  | .ok (_, settings), .text name =>
    match listInForce host c.code c.filename settings with
    | some _ => settings.addedIn name
    | none => []
  | _, _ => []

/-- The call ignores something in its file on top of a list that the caller says nothing about. -/
def Leaks (host : Host) (files : FileTree) (c : Call) : Prop :=
  c.added host files ≠ [] ∧ isAbout ignoredKey c.overrides = false

theorem leaks_iff {host : Host} {files : FileTree} {c : Call} : c.Leaks host files ↔
    (c.added host files).isEmpty = false ∧
      isAbout ignoredKey c.overrides = false := by
  simp [Leaks]

instance (host : Host) (files : FileTree) (c : Call) : Decidable (c.Leaks host files) :=
  decidable_of_iff _ leaks_iff.symm

/-- The call ignores something in its file on top of a list of the caller. -/
def ExtendsCaller (host : Host) (files : FileTree) (c : Call) : Prop :=
  c.added host files ≠ [] ∧ (c.overrides.lookup ignoredKey).isSome

end Call

namespace Session

variable {host : Host} {files : FileTree} {general : List Datum}

private theorem pristine_modify_iff (h : s.Pristine host files)
    (hf : s.configured.find? path = some settings)
    (hg : settings.lookup ignoredKey = some (.list general)) (items : List Datum) :
    Pristine host files { s with
      configured := s.configured.modify path (·.set ignoredKey (.list items)) } ↔
        items = general := by
  constructor
  · intro hp
    have hfind := Cache.find?_modify s.configured path
      (fun settings => settings.set ignoredKey (.list items))
    rw [hf, Option.map_some] at hfind
    have hsame := hp.configured_all.of_find? hfind
    rw [h.configured_all.of_find? hf] at hsame
    have hl := lookup_set ignoredKey ignoredKey (.list items) settings
    rw [← Except.ok.inj hsame, hg, if_pos rfl] at hl
    simpa using hl.symm
  · rintro rfl
    refine ⟨h.files_eq, h.ignored_eq, h.configured_all.modify fun other ho => ?_, h.options_all⟩
    obtain rfl := Except.ok.inj ((h.configured_all.of_find? hf).symm.trans ho)
    rwa [set_of_lookup hg]

/-- A list that is shared is as it was exactly if nothing has been added to it. -/
theorem pristine_extended_iff (h : s.Pristine host files)
    (hf : s.configured.find? path = some settings)
    (hg : (settings.withShared initiallyIgnored).lookup ignoredKey =
      some (.list general)) (items : List Datum) :
    (s.extended path items).Pristine host files ↔ items = general := by
  rw [lookup_withShared] at hg
  unfold extended
  cases hl : settings.lookup ignoredKey with
  | some value =>
    simp only [hl, hf, Option.isSome_some, if_true]
    rw [hl] at hg
    cases hg
    exact pristine_modify_iff h hf hl items
  | none =>
    simp only [hl, hf]
    rw [hl] at hg
    cases hg
    constructor
    · intro hp
      exact hp.ignored_eq
    · rintro rfl
      exact ⟨h.files_eq, rfl, h.configured_all, h.options_all⟩

end Session

namespace Work

variable {α : Type} {act : Work α} {answer : Except Failure α}

/-- What comes of some work, and what is told meanwhile. -/
def outcome (act : Work α) (s : Session) : Except Failure α × List Report :=
  match act s with
  | .ok a t => (.ok a, t.reports.toList.drop s.reports.size)
  | .error e t => (.error e, t.reports.toList.drop s.reports.size)

/-- The session after some work, which may have failed. -/
def final (act : Work α) (s : Session) : Session :=
  match act s with
  | .ok _ t => t
  | .error _ t => t

theorem outcome_of_eq {told : List Report}
    (h : act s = finish answer t) (hr : t.reports = s.reports ++ told.toArray) :
    outcome act s = (answer, told) := by
  cases answer <;> simp [outcome, h, finish, hr]

theorem final_of_eq (h : act s = finish answer t) : final act s = t := by
  cases answer <;> simp [final, h, finish]

theorem outcome_checkUnder (host : Host) (path code : String) (filename : Datum)
    (settings overrides : Settings) (s : Session) :
    outcome (checkUnder host path code filename settings overrides) s =
      ((account host code filename settings).answer.map
        (·, keptOverrides overrides (listInForce host code filename settings)),
        (account host code filename settings).told) := by
  refine outcome_of_eq (checkUnder_eq ..) ?_
  rw [Session.tell, keptSession_reports]

end Work

/-- The session after some calls, one after another. -/
def Session.after (s : Session) (host : Host) (calls : List Call) : Session :=
  calls.foldl (fun t c => final (c.perform host) t) s

theorem Session.after_concat (s : Session) (host : Host) (calls : List Call) (c : Call) :
    s.after host (calls ++ [c]) = final (c.perform host) (s.after host calls) := by
  simp [Session.after]

namespace Call

variable {host : Host} {files : FileTree} {configured : Settings}

theorem perform_of_inForce (c : Call) (h : s.Pristine host files) :
    ∃ t, t.Pristine host files ∧ t.reports = s.reports ∧
      match c.inForce host files with
      | .error e => c.perform host s = .error e t
      | .ok (path, settings) =>
        c.perform host s = checkUnder host path c.code c.filename settings c.overrides t ∧
          ∃ configured, t.configured.find? path = some configured ∧
            (configured.withShared initiallyIgnored).override c.overrides =
              .ok settings := by
  unfold inForce perform check checkOverrides
  generalize (c.overrides.any fun e =>
    (["codeString", "filename"] ++ reservedOverrides).contains e.1) = refused
  cases refused with
  | true => exact ⟨s, h, rfl, rfl⟩
  | false =>
    cases settingsPath host c.filename c.given with
    | error e => exact ⟨s, h, rfl, rfl⟩
    | ok path =>
      obtain ⟨hignored, hkept⟩ := Session.pristine_iff.mp h
      obtain ⟨t, ht, hi, hr, hread⟩ := settingsFor_of_kept hkept (fun _ => by rw [hignored]) path
      rw [hignored] at hi
      refine ⟨t, Session.pristine_iff.mpr ⟨hi, ht⟩, hr, ?_⟩
      cases hc : configuredAt host files path with
      | error e =>
        rw [hc] at hread
        simp [hc, hread]
      | ok configured =>
        rw [hc] at hread
        obtain ⟨settings, hs, rfl, hf⟩ := hread
        cases ho : (settings.withShared initiallyIgnored).override c.overrides with
        | error e => simp [hc, hs, ho, hi]
        | ok inForce => simp [hc, hs, ho, hi, hf]

/-- A list that the checker is started with is the general one and what the call adds to it. -/
theorem listInForce_of_inForce (c : Call) (h : c.inForce host files = .ok (path, settings)) :
    (listInForce host c.code c.filename settings = none ∧ c.added host files = []) ∨
      ∃ general, (settings.lookup ignoredKey).getD (.list []) = .list general ∧
        listInForce host c.code c.filename settings =
          some (general ++ c.added host files) := by
  unfold added
  cases hl : listInForce host c.code c.filename settings with
  | none =>
    left
    refine ⟨rfl, ?_⟩
    rw [h]
    split
    · rename_i hs _
      cases hs
      rw [hl]
    · rfl
  | some items =>
    right
    obtain ⟨name, general, hname, hg, rfl⟩ := listInForce_eq_some hl
    exact ⟨general, hg, by simp [h, hname, hname ▸ hl]⟩

/-- The overrides of the caller are as they were exactly if no list of theirs was extended. -/
theorem keptOverrides_eq_iff (c : Call) (h : c.inForce host files = .ok (path, settings))
    (ho : (configured.withShared initiallyIgnored).override c.overrides = .ok settings) :
    keptOverrides c.overrides (listInForce host c.code c.filename settings) =
      c.overrides ↔ ¬ c.ExtendsCaller host files := by
  unfold ExtendsCaller
  rcases c.listInForce_of_inForce h with ⟨hl, ha⟩ | ⟨general, hg, hl⟩
  · simp [hl, ha, keptOverrides]
  · rw [hl]
    cases hv : c.overrides.lookup ignoredKey with
    | none => simp [keptOverrides, hv]
    | some value =>
      have hs := lookup_override_of_lookup ho c.distinct hv
      obtain rfl : value = .list general := by simpa [hs] using hg
      simp only [keptOverrides, hv, Option.isSome_some, if_true, and_true, ne_eq,
        Classical.not_not]
      constructor
      · intro hk
        have hk := congrArg (List.lookup ignoredKey) hk
        rw [lookup_set, if_pos rfl, hv] at hk
        simpa using hk
      · intro ha
        simp [ha, set_of_lookup hv]

/-- What checks share is as it was exactly if the call does not leak. -/
theorem pristine_keptSession_iff (c : Call) (h : c.inForce host files = .ok (path, settings))
    (ht : t.Pristine host files) (hf : t.configured.find? path = some configured)
    (ho : (configured.withShared initiallyIgnored).override c.overrides = .ok settings) :
    (keptSession path c.overrides (listInForce host c.code c.filename settings)
      t).Pristine host files ↔ ¬ c.Leaks host files := by
  unfold Leaks
  rcases c.listInForce_of_inForce h with ⟨hl, ha⟩ | ⟨general, hg, hl⟩
  · simp [hl, ha, keptSession, ht]
  · rw [hl]
    cases hab : isAbout ignoredKey c.overrides with
    | true => simp [keptSession, hab, ht]
    | false =>
      have hs := lookup_override_ignoredKey ho hab
      have hshared : (configured.withShared initiallyIgnored).lookup
          ignoredKey = some (.list general) := by
        rw [lookup_withShared] at hs ⊢
        rw [hs, Option.getD_some] at hg
        rw [hg]
      simp only [keptSession, hab, Bool.false_eq_true, if_false, and_true, ne_eq,
        Classical.not_not]
      rw [Session.pristine_extended_iff ht hf hshared]
      simp

private theorem added_of_error (c : Call) {e : Failure} (h : c.inForce host files = .error e) :
    c.added host files = [] := by
  simp [added, h]

/-- One call, in a session that is still like a new one: the answer and the reports are the same in
all of these, and the session stays like a new one exactly if the call does not leak. -/
theorem perform_of_pristine (host : Host) (files : FileTree) (c : Call) :
    ∃ (answer : Except Failure (Nat × Settings)) (told : List Report),
      (∀ s, s.Pristine host files → ∃ t, c.perform host s = finish answer t ∧
        t.reports = s.reports ++ told.toArray ∧
        (t.Pristine host files ↔ ¬ c.Leaks host files)) ∧
      ∀ n kept, answer = .ok (n, kept) →
        (kept = c.overrides ↔ ¬ c.ExtendsCaller host files) := by
  cases h : c.inForce host files with
  | error e =>
    refine ⟨.error e, [], fun s hs => ?_, fun n kept ha => nomatch ha⟩
    obtain ⟨t, ht, hr, hp⟩ := c.perform_of_inForce hs
    rw [h] at hp
    have hl : ¬ c.Leaks host files := fun hl => hl.1 (added_of_error c h)
    exact ⟨t, hp, by simp [hr], by simp [ht, hl]⟩
  | ok found =>
    obtain ⟨path, settings⟩ := found
    have hu := checkUnder_eq host path c.code c.filename settings c.overrides
    generalize hanswer : (account host c.code c.filename settings).answer.map _ = answer at hu
    generalize (account host c.code c.filename settings).told = told at hu
    refine ⟨answer, told, fun s hs => ?_, fun n kept ha => ?_⟩
    · obtain ⟨t, ht, hr, hp⟩ := c.perform_of_inForce hs
      rw [h] at hp
      obtain ⟨hp, configured, hf, ho⟩ := hp
      refine ⟨_, hp.trans (hu t), ?_, ?_⟩
      · simp [Session.tell, keptSession_reports, hr]
      · rw [Session.Pristine.tell]
        exact c.pristine_keptSession_iff h ht hf ho
    · obtain ⟨t, -, -, hp⟩ := c.perform_of_inForce (Session.pristine_initial host files)
      rw [h] at hp
      obtain ⟨-, configured, -, ho⟩ := hp
      rw [(kept_of_checkUnder (hanswer.trans ha)).2]
      exact c.keptOverrides_eq_iff h ho

theorem pristine_after {calls : List Call} (h : ∀ d ∈ calls, ¬ d.Leaks host files)
    (hs : s.Pristine host files) : (s.after host calls).Pristine host files := by
  induction calls generalizing s with
  | nil => exact hs
  | cons c rest ih =>
    obtain ⟨answer, told, hp, -⟩ := perform_of_pristine host files c
    obtain ⟨t, ht, -, hiff⟩ := hp s hs
    have hfinal : (final (c.perform host) s).Pristine host files := by
      rw [final_of_eq ht]
      exact hiff.mpr (h c (by simp))
    exact ih (fun d hd => h d (by simp [hd])) hfinal

/-- As long as no call has left anything in a list that checks share, the next one answers and tells
what it would in a new session. It leaves what checks share as it was exactly if it adds nothing to
such a list, and the overrides of its caller exactly if it adds nothing to a list among them. -/
theorem outcome_after_of_not_leaks (host : Host) (files : FileTree) (calls : List Call) (c : Call)
    (h : ∀ d ∈ calls, ¬ d.Leaks host files) :
    outcome (c.perform host) ((Session.initial files).after host calls) =
        outcome (c.perform host) (Session.initial files) ∧
      (((Session.initial files).after host (calls ++ [c])).Pristine host files ↔
        ¬ c.Leaks host files) ∧
      ∀ n kept, (outcome (c.perform host) (Session.initial files)).1 = .ok (n, kept) →
        (kept = c.overrides ↔ ¬ c.ExtendsCaller host files) := by
  obtain ⟨answer, told, hp, hk⟩ := perform_of_pristine host files c
  have hnew := Session.pristine_initial host files
  obtain ⟨t, ht, hr, -⟩ := hp _ hnew
  obtain ⟨u, hu, hru, hiff⟩ := hp _ (pristine_after h hnew)
  have hfirst := outcome_of_eq ht hr
  refine ⟨(outcome_of_eq hu hru).trans hfirst.symm, ?_, ?_⟩
  · rwa [Session.after_concat, final_of_eq hu]
  · rw [hfirst]
    exact hk

end Call

namespace Call.Example

/-- A source with an import that nothing uses. -/
def tree : Node where
  id := 0
  kind := "Module"
  position := none
  fields := [("body", .list [.node ⟨1, "Import", some (.of 1 0), [("names", .list [
    .node ⟨2, "alias", none, [("name", .text "os"), ("asname", .null)]⟩])]⟩])]

/-- A directory with a configuration by which unused imports are ignored in `a.py`. -/
def files : FileTree :=
  .directory [("p", .directory [(".frosted.cfg",
    .file ("[settings]\nignore_frosted_errors_for_a.py = E101\n".toList.map (·.toNat.toUInt8)))])]

def host : Host where
  cwd := "/p"
  home := "/h"
  dialect := .threeFour
  traced := false
  seesComments := true
  opensSources := true
  compileExample := .ofTable []
  remarks _ := []
  compile code _ := if code = "" then .tree ⟨0, "Module", none, [("body", .list [])]⟩ else .tree tree

def call (name : String) : Call := ⟨"import os\n", .text name, .text ".", [], by simp⟩

end Call.Example

namespace Call

/-- Checks of two sources called `b.py`, one of them empty, leave nothing behind for one of `a.py`,
which leaves something behind. -/
theorem outcome_after_unleaking_call :
    let earlier := [{ Example.call "b.py" with code := "" }, Example.call "b.py"]
    outcome ((Example.call "a.py").perform Example.host)
        ((Session.initial Example.files).after Example.host earlier) =
      outcome ((Example.call "a.py").perform Example.host) (Session.initial Example.files) ∧
    ¬ ((Session.initial Example.files).after Example.host
        (earlier ++ [Example.call "a.py"])).Pristine Example.host Example.files := by
  intro earlier
  have hb : ∀ d ∈ earlier, ¬ d.Leaks Example.host Example.files := by decide +kernel
  have ha : (Example.call "a.py").Leaks Example.host Example.files := by decide +kernel
  obtain ⟨hsame, hiff, -⟩ := outcome_after_of_not_leaks Example.host Example.files earlier
    (Example.call "a.py") hb
  exact ⟨hsame, fun hp => hiff.mp hp ha⟩

/-- After a check of `a.py`, where unused imports are ignored, the one of `b.py` misses its own. -/
theorem count_after_leaking_call :
    (outcome ((Example.call "b.py").perform Example.host)
        ((Session.initial Example.files).after Example.host
          [Example.call "a.py"])).1.toOption.map Prod.fst = some 0 ∧
      (outcome ((Example.call "b.py").perform Example.host)
        (Session.initial Example.files)).1.toOption.map Prod.fst = some 1 := by
  decide +kernel

end Call

end ScopeLint
