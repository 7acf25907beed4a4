import ScopeLint.Proofs.Checker.Ignoring
import ScopeLint.Proofs.Session.Agreement

/-! # What a check tells

The diagnostics that a check tells of are those that the checker leaves, and it leaves none of a kind
that is ignored. What is in force for a file apart from the general list depends on the configuration
alone, whatever has been checked before. -/
namespace ScopeLint

open List

variable {host : Host} {files : FileTree} {s : Session}

namespace Kind

theorem listedIn_mono {items more : List Datum} (h : ∀ x ∈ items, x ∈ more) {k : Kind}
    (hk : k.listedIn items = true) : k.listedIn more = true := by
  have hany {x : Datum} (hx : Datum.among items x = true) : Datum.among more x = true := by
    obtain ⟨y, hy, hsame⟩ := any_eq_true.mp hx
    exact any_eq_true.mpr ⟨y, h y hy, hsame⟩
  simp only [listedIn, Bool.or_eq_true] at hk ⊢
  exact hk.imp (Or.imp hany hany) hany

end Kind

namespace Work

variable {code name : String} {settings : Settings} {kinds : List Datum} {d : Diagnostic}

theorem mem_sortByLine {ds found : List Diagnostic} (h : Diagnostic.sortByLine ds = .ok found)
    (d : Diagnostic) : d ∈ found ↔ d ∈ ds := by
  unfold Diagnostic.sortByLine at h
  dsimp only at h
  split at h
  · cases h
    exact mem_mergeSort
  · cases h

theorem run_of_mem_accountFound {request : Request}
    (h : .diagnostic d ∈ (accountFound request).told) :
    ∃ t, request.run = (t, none) ∧ d ∈ t.messages := by
  have hnotice (lines : List String) :
      .diagnostic d ∉ lines.map fun line => Report.notice (line ++ "\n") := by simp
  unfold accountFound at h
  dsimp only at h
  split at h
  · exact absurd h (hnotice _)
  · exact absurd h (hnotice _)
  · rename_i found hrun hsort
    obtain ⟨e, he, hsame⟩ := mem_map.mp ((mem_append.mp h).resolve_left (hnotice _))
    cases hsame
    exact ⟨_, Prod.ext rfl hrun, Array.mem_toList_iff.mp ((mem_sortByLine hsort d).mp he)⟩

theorem kind_of_mem_accountOf {k : Kind} {filename : Datum} {args : List Datum} {named : Named}
    {count : Nat} (h : .diagnostic d ∈ (accountOf count (k.compose filename args named)).told) :
    d.kind = k := by
  cases hd : k.compose filename args named with
  | error e =>
    rw [hd] at h
    cases h
  | ok e =>
    rw [hd] at h
    cases mem_singleton.mp h
    exact Kind.kind_of_compose hd

theorem kind_of_mem_accountSkipped {filename : Datum}
    (h : .diagnostic d ∈ (accountSkipped settings filename).told) : d.kind = .fileSkipped := by
  unfold accountSkipped at h
  dsimp only at h
  split at h
  · exact kind_of_mem_accountOf h
  · split at h
    · split at h
      · cases h
      · cases h
      · exact kind_of_mem_accountOf h
    · cases h

/-- The kinds of what is told without the checker: a file that is skipped, or that cannot be read. -/
def unfiltered : List Kind := [.fileSkipped, .sourceSyntaxError]

/-- A check under given settings tells of what is not ignored in the file, and of files that are
skipped or cannot be read. -/
theorem not_listed_of_mem_account (hkinds : ∀ d, settings.ignoredIn name = .ok d → d = .list kinds)
    (h : .diagnostic d ∈ (account host code (.text name) settings).told) :
    d.kind ∈ unfiltered ∨ d.kind.listedIn kinds = false := by
  unfold account at h
  split at h
  · cases h
  · simp [unfiltered, kind_of_mem_accountSkipped h]
  · split at h
    · unfold accountTree at h
      split at h
      · cases h
      · obtain ⟨t, hrun, hd⟩ := run_of_mem_accountFound h
        obtain ⟨cfg, hsetup, hrun⟩ := Request.run_eq_iff.mp hrun
        obtain ⟨other, hother, hignored, hlines⟩ := ignored_of_setup hsetup
        cases hother
        exact .inr (Check.not_listed_of_run (hkinds _ hignored) hlines hrun hd)
    · split at h
      · cases h
      · cases mem_singleton.mp h
    · cases mem_singleton.mp h
    · simp [unfiltered, kind_of_mem_accountOf h]

end Work

namespace Session

/-- A session over the files in which everything that is kept is what would be read afresh, but for
lists of what is ignored in general. -/
abbrev Faithful (host : Host) (files : FileTree) (s : Session) : Prop :=
  s.Kept (Settings.AgreeBut Settings.ignoredKey) host files

theorem faithful_initial (host : Host) (files : FileTree) :
    (Session.initial files).Faithful host files :=
  ⟨rfl, Cache.all_empty _, Cache.all_empty _⟩

theorem Faithful.tell (h : s.Faithful host files) (told : List Report) :
    (s.tell told).Faithful host files :=
  ⟨h.files_eq, h.configured_all, h.options_all⟩

theorem Faithful.extended (h : s.Faithful host files) (path : String) (items : List Datum) :
    (s.extended path items).Faithful host files := by
  have hmodified : (s.configured.modify path
      (·.set Settings.ignoredKey (.list items))).All fun path settings => ∃ configured,
        Settings.configuredAt host files path = .ok configured ∧
          Settings.AgreeBut Settings.ignoredKey settings configured := by
    refine h.configured_all.modify fun settings => ?_
    rintro ⟨configured, hconfigured, hagree⟩
    exact ⟨configured, hconfigured, (Settings.agreeBut_set _ _ _).trans hagree⟩
  unfold Session.extended
  dsimp only
  split_ifs
  · exact ⟨h.files_eq, hmodified, h.options_all⟩
  · exact ⟨h.files_eq, h.configured_all, h.options_all⟩

theorem Faithful.kept (h : s.Faithful host files) (path : String) (overrides : Settings)
    (items : Option (List Datum)) :
    (Work.keptSession path overrides items s).Faithful host files := by
  unfold Work.keptSession
  split
  · split
    · exact h
    · exact h.extended _ _
  · exact h

end Session

namespace Work

/-- What a check does before it looks at the source: it finds the directory whose configuration holds
for the file, and the settings in force. -/
def prepare (host : Host) (filename given : Datum) (overrides : Settings) :
    Work (String × Settings) := do
  checkOverrides ["codeString", "filename"] overrides
  let path ← lift (settingsPath host filename given)
  let configured ← settingsFor host path
  let settings ← lift ((configured.withShared (← get).ignored).override overrides)
  return (path, settings)

theorem check_eq (host : Host) (code : String) (filename given : Datum) (overrides : Settings) :
    check host code filename given overrides = (do
      let (path, settings) ← prepare host filename given overrides
      checkUnder host path code filename settings overrides) := by
  simp [check, prepare]

/-- In a session with any history the settings in force come from the configuration, but for the
general list of what is ignored, and nothing is told of that. -/
theorem prepare_of_faithful (h : s.Faithful host files) (filename given : Datum)
    (overrides : Settings) :
    ∃ t, t.Faithful host files ∧ t.reports = s.reports ∧
      ((∃ e, prepare host filename given overrides s = .error e t) ∨
        ∃ path configured settings inForce, settingsPath host filename given = .ok path ∧
          Settings.configuredAt host files path = .ok configured ∧
          Settings.AgreeBut Settings.ignoredKey settings configured ∧
          (settings.withShared t.ignored).override overrides = .ok inForce ∧
          prepare host filename given overrides s = .ok (path, inForce) t) := by
  unfold prepare checkOverrides
  generalize (overrides.any fun e =>
    (["codeString", "filename"] ++ reservedOverrides).contains e.1) = refused
  cases refused with
  | true => exact ⟨s, h, rfl, .inl ⟨_, rfl⟩⟩
  | false =>
    cases settingsPath host filename given with
    | error e => exact ⟨s, h, rfl, .inl ⟨_, rfl⟩⟩
    | ok path =>
      obtain ⟨t, ht, -, hreports, hread⟩ := settingsFor_of_kept h
        (fun options => (Settings.AgreeBut.refl _ _).applyOptions (Or.inl rfl) options) path
      refine ⟨t, ht, hreports, ?_⟩
      cases hconfigured : Settings.configuredAt host files path with
      | error e =>
        rw [hconfigured] at hread
        exact .inl ⟨e, by simp [hread]⟩
      | ok configured =>
        rw [hconfigured] at hread
        obtain ⟨settings, hsettings, hagree, -⟩ := hread
        cases hforce : (settings.withShared t.ignored).override overrides with
        | error e => exact .inl ⟨.fault e, by simp [hsettings, hforce]⟩
        | ok inForce =>
          refine .inr ⟨path, configured, settings, inForce, rfl, hconfigured, hagree, hforce, ?_⟩
          simp [hsettings, hforce]

/-- In a session with any history a check fails before it tells anything, or gives the account of a
check under the settings in force. -/
theorem outcome_check (h : s.Faithful host files) (code : String) (filename given : Datum)
    (overrides : Settings) : outcome (check host code filename given overrides) s =
      match prepare host filename given overrides s with
      | .error e _ => (.error e, [])
      | .ok (_, settings) _ => ((account host code filename settings).answer.map
          (·, keptOverrides overrides (listInForce host code filename settings)),
        (account host code filename settings).told) := by
  obtain ⟨t, -, hreports, ⟨e, he⟩ | ⟨path, configured, settings, inForce, -, -, -, -, he⟩⟩ :=
    prepare_of_faithful h filename given overrides
  · have hcheck : check host code filename given overrides s = finish (.error e) t := by
      rw [check_eq, bind_apply, he]
      rfl
    rw [he]
    exact outcome_of_eq hcheck (hreports.trans Array.append_empty.symm)
  · have hcheck : check host code filename given overrides s =
        checkUnder host path code filename inForce overrides t := by
      rw [check_eq, bind_apply, he]
    rw [he]
    refine outcome_of_eq (hcheck.trans (checkUnder_eq ..)) ?_
    rw [Session.tell, keptSession_reports, hreports]

end Work

namespace Call

theorem faithful_final (c : Call) (h : s.Faithful host files) :
    (Work.final (c.perform host) s).Faithful host files := by
  obtain ⟨t, ht, -, ⟨e, he⟩ | ⟨path, configured, settings, inForce, -, -, -, -, he⟩⟩ :=
    Work.prepare_of_faithful h c.filename c.given c.overrides
  · rw [Work.final, perform, Work.check_eq, bind_apply, he]
    exact ht
  · rw [Work.final, perform, Work.check_eq, bind_apply, he, ← Work.final,
      Work.final_of_eq (Work.checkUnder_eq ..)]
    exact (ht.kept path c.overrides _).tell _

theorem faithful_after (calls : List Call) (h : s.Faithful host files) :
    (s.after host calls).Faithful host files := by
  induction calls generalizing s with
  | nil => exact h
  | cons c rest ih => exact ih (c.faithful_final h)

end Call

end ScopeLint
