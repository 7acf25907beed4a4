import ScopeLint.Proofs.Session.Exemptions

/-! # What is ignored where nothing is configured

Without configuration there is one base name for which something is ignored beyond the general list.
It is not the name of a package file: such a file is checked like any other. -/
namespace ScopeLint

open List Settings

namespace Settings

/-- The base name for which something is ignored where nothing is configured. -/
def exemptName : String := "_init__.py"

/-- What is ignored, where nothing is configured, in files with the base name. -/
def exempted (base : String) : List Datum :=
  if base = exemptName then [.text "E101", .text "E103"] else []

theorem lookup_unconfigured (base : String) : unconfigured.lookup (ignoredForKey base) =
    if base = exemptName then some (.list [.text "E101", .text "E103"]) else none := by
  have hkey : ignoredKey ++ "_for__init__.py" = ignoredForKey exemptName := by decide
  have hother : ∀ key ∈ ["skip", "verbose", "run_doctests"], isListing key = false := by
    decide
  have hne {key : String} (h : key ∈ ["skip", "verbose", "run_doctests"]) :
      (ignoredForKey base == key) = false := by
    rw [beq_eq_false_iff_ne]
    exact (ignoredForKey_ne_of_not_listing (hother key h) base).symm
  unfold unconfigured
  rw [lookup_cons, hne (by simp), lookup_cons, hkey]
  by_cases hbase : base = exemptName
  · simp [hbase]
  · have hfalse : (ignoredForKey base == ignoredForKey exemptName) = false := by
      rw [beq_eq_false_iff_ne, ne_eq, ignoredForKey_inj]
      exact hbase
    rw [hfalse, if_neg hbase]
    simp [lookup_cons, hne]

theorem ignoredIn_unconfigured (filename : String) (ignored : List Datum) :
    (unconfigured.withShared ignored).ignoredIn filename =
      .ok (.list (ignored ++ exempted (Path.base filename))) := by
  have hgeneral : (unconfigured.withShared ignored).lookup ignoredKey = some (.list ignored) := by
    rw [lookup_withShared]
    rfl
  unfold ignoredIn exempted
  rw [hgeneral, lookup_withShared_of_ne (ignoredForKey_ne _), lookup_unconfigured]
  by_cases hbase : Path.base filename = exemptName
  · rw [if_pos hbase, if_pos hbase]
    rfl
  · rw [if_neg hbase, if_neg hbase]
    simp

end Settings

namespace Work

variable {host : Host} {tree : Node} {name : String} {t : State} {found : List Diagnostic}

/-- A check of a tree in which nothing is ignored. -/
def unfilteredRequest (host : Host) (tree : Node) (name : String) : Request :=
  requestFor host tree (.text name)
    [(ignoredKey, .list []), ("verbose", .bool false), ("run_doctests", .bool false)] []

theorem isSkipped_nil (name : String) : isSkipped (.list []) (.text name) = .ok false := by
  have hnone (names : List String) :
      anyOf (fun name => (Datum.list []).lists (.text name)) names = .ok false := by
    induction names with
    | nil => rfl
    | cons first rest ih => exact ih
  exact hnone _

/-- Where nothing is configured, a check of a tree ends as the one in which nothing is ignored, less the
messages that are ignored in the file. -/
theorem run_unconfigured (h : (unfilteredRequest host tree name).run = (t, none))
    (ignored : List Datum) (rows : List Nat) :
    (requestFor host tree (.text name) (unconfigured.withShared ignored) rows).run =
      (t.retold (.filter (Diagnostic.spared (ignored ++ exempted (Path.base name))
        (rows.map fun n : Nat => .int n))), none) := by
  obtain ⟨cfg, hsetup, hrun⟩ := Request.run_eq_iff.mp h
  obtain ⟨other, hother, hignored, hlines⟩ := ignored_of_setup hsetup
  have hbase : cfg.ignored = .list [] := by
    cases hother
    have hnone : (unfilteredRequest host tree name).settings.lookup
        (ignoredForKey (Path.base name)) = none := by
      have hfixed : ∀ key ∈ [ignoredKey, "verbose", "run_doctests"],
          isListing key = false := by decide
      rw [lookup_eq_none_iff]
      intro e he
      rw [bne_iff_ne]
      refine (ignoredForKey_ne_of_not_listing (hfixed e.1 ?_) _).symm
      exact mem_map_of_mem he
    unfold ignoredIn at hignored
    rw [hnone] at hignored
    exact (Except.ok.inj hignored).symm
  have hless : (requestFor host tree (.text name) (unconfigured.withShared ignored)
      rows).setup = .ok (cfg.less (.list (ignored ++ exempted (Path.base name)))
        (.list (rows.map fun n : Nat => .int n))) := by
    refine Request.setup_of_settings hsetup rfl rfl rfl fun other hother => ?_
    cases hother
    exact ignoredIn_unconfigured name ignored
  have hretells (named : Named) := @Check.retells_of_list cfg []
    (ignored ++ exempted (Path.base name)) (rows.map fun n : Nat => .int n) named hbase hlines
  rw [append_nil] at hretells
  exact Request.run_eq_iff.mpr ⟨_, hless, Check.mirrors_run hretells _ _ _ hrun⟩

theorem account_unconfigured {code : String} {rows : List Nat} {ignored : List Datum}
    (htree : host.compile code (.text name) = .tree tree)
    (hrows : Comment.suppressedRows host.seesComments code = .ok rows)
    (hrun : (requestFor host tree (.text name) (unconfigured.withShared ignored) rows).run =
      (t, none))
    (hfound : Diagnostic.sortByLine t.messages.toList = .ok found) :
    account host code (.text name) (unconfigured.withShared ignored) =
      ⟨.ok found.length, t.trace.toList.map (fun line => .notice (line ++ "\n")) ++
        found.map Report.diagnostic⟩ := by
  have hskip : (unconfigured.withShared ignored).lookup "skip" = some (.list []) := rfl
  simp [account, hskip, isSkipped_nil, htree, accountTree, hrows, accountFound, hrun, hfound]

end Work

namespace Call

variable {host : Host} {files : FileTree}

theorem inForce_of_unconfigured {c : Call} {dir : String}
    (hdir : Work.settingsPath host c.filename c.given = .ok dir)
    (hoptions : optionsFor host files dir = .ok []) (hoverrides : c.overrides = []) :
    c.inForce host files =
      .ok (dir, unconfigured.withShared initiallyIgnored) := by
  have hconfigured := configuredAt_eq host files dir
  rw [hoptions] at hconfigured
  have hallowed : c.isRefused = false := by rw [isRefused, hoverrides]; rfl
  rw [inForce_of_configured hallowed hdir hconfigured, hoverrides]
  rfl

/-- A check where nothing is configured and nothing overridden. It tells of the messages of the check
in which nothing is ignored, less those that are ignored from the start, those on suppressed rows, and
in files called `_init__.py` those about unused imports and star imports. In a package file, whose name
is another one, these are told of. -/
theorem told_without_configuration (host : Host) (files : FileTree) (c : Call) {s : Session}
    (hs : s.Pristine host files) {name dir : String} {tree : Node} {rows : List Nat} {t : State}
    {found : List Diagnostic} (hname : c.filename = .text name)
    (hdir : Work.settingsPath host c.filename c.given = .ok dir)
    (hoptions : optionsFor host files dir = .ok []) (hoverrides : c.overrides = [])
    (htree : host.compile c.code c.filename = .tree tree)
    (hrows : Comment.suppressedRows host.seesComments c.code = .ok rows)
    (hrun : (Work.unfilteredRequest host tree name).run = (t, none))
    (hfound : Diagnostic.sortByLine (t.messages.toList.filter (Diagnostic.spared
      (initiallyIgnored ++ exempted (Path.base name))
      (rows.map fun n : Nat => .int n))) = .ok found) :
    Work.outcome (c.perform host) s = (.ok (found.length, []),
      t.trace.toList.map (fun line => .notice (line ++ "\n")) ++ found.map Report.diagnostic) ∧
    ∀ d : Diagnostic, d.kind = .unusedImport ∨ d.kind = .importStarUsed →
      (d ∈ found ↔ d ∈ t.messages ∧ Path.base name ≠ exemptName ∧
        Datum.among (rows.map fun n : Nat => .int n) d.line = false) := by
  have hrequest := Work.run_unconfigured hrun initiallyIgnored rows
  refine ⟨?_, fun d hd => ?_⟩
  · rw [c.outcome_perform hs s, inForce_of_unconfigured hdir hoptions hoverrides, hname, hoverrides]
    rw [hname] at htree
    have hsorted : Diagnostic.sortByLine (t.retold (.filter (Diagnostic.spared
        (initiallyIgnored ++ exempted (Path.base name))
        (rows.map fun n : Nat => .int n)))).messages.toList = .ok found := by
      rw [State.retold, Retelling.filter, Array.toList_filter]
      exact hfound
    dsimp only
    rw [Work.outcome_checkUnder, Work.account_unconfigured htree hrows hrequest hsorted,
      Work.keptOverrides_nil]
    rfl
  · have hkinds : Kind.listedIn initiallyIgnored d.kind = false ∧
        Kind.listedIn [.text "E101", .text "E103"] d.kind = true := by
      rcases hd with hd | hd <;> rw [hd] <;> decide +kernel
    rw [Work.mem_sortByLine hfound, mem_filter, Array.mem_toList_iff, Diagnostic.spared,
      Kind.listedIn_append, hkinds.1, exempted]
    by_cases hbase : Path.base name = exemptName
    · simp [hbase, hkinds.2]
    · have hempty : Kind.listedIn [] d.kind = false := rfl
      simp [hbase, hempty]

/-- The one message about a package file with an unused import. -/
theorem told_without_configuration_package : ∃ (t : State) (d : Diagnostic),
    (Work.unfilteredRequest Example.host Example.tree "__init__.py").run =
      (t, none) ∧
    Work.outcome ((Example.call "__init__.py").perform Example.host)
      (Session.initial Example.bare) = (.ok (1, []), [.diagnostic d]) := by
  have hcompletes : Sample.completes
      (Work.unfilteredRequest Example.host Example.tree "__init__.py")
      (fun t => t.trace.isEmpty && match Diagnostic.sortByLine (t.messages.toList.filter
        (Diagnostic.spared (initiallyIgnored ++ exempted (Path.base "__init__.py"))
          (([] : List Nat).map fun n : Nat => .int n))) with
        | .ok found => found.length == 1
        | .error _ => false) = true := by
    decide +kernel
  have hrows : Comment.suppressedRows true "import os\n" = .ok [] := by decide +kernel
  obtain ⟨t, hrun, htest⟩ := Sample.completes_eq_true hcompletes
  rw [Bool.and_eq_true, Array.isEmpty_iff] at htest
  obtain ⟨htrace, htest⟩ := htest
  split at htest
  · rename_i found hfound
    obtain ⟨d, rfl⟩ := length_eq_one_iff.mp (beq_iff_eq.mp htest)
    obtain ⟨houtcome, -⟩ := told_without_configuration Example.host Example.bare
      (Example.call "__init__.py") (Session.pristine_initial _ _) rfl rfl rfl rfl rfl hrows hrun hfound
    refine ⟨t, d, hrun, houtcome.trans ?_⟩
    rw [htrace]
    rfl
  · cases htest

/-- The code that is to be ignored in package files is reported for one. -/
theorem unused_import_in_package_file :
    (Work.outcome ((Example.call "__init__.py").perform Example.host)
      (Session.initial Example.bare)).2.map Report.output =
        ["__init__.py:1: os imported but unused\n"] := by
  decide +kernel

end Call

end ScopeLint
