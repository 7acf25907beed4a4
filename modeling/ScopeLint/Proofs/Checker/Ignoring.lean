import ScopeLint.Proofs.Checker.Recorded
import ScopeLint.Proofs.Checker.Retelling
import ScopeLint.Proofs.Session.Keeping

/-! # What is ignored is left out, and nothing else changes

A check that ignores kinds and lines ends as the check that ignores none of them, less the messages
of those kinds and on those lines. -/
namespace ScopeLint

namespace Check

variable {tell : Retelling} {cfg : Setup} {kinds lines : Datum} {v w : Visit}

theorem mirrors_finishBody (cfg : Setup) (kinds lines : Datum) (n : Node) :
    Mirrors tell (finishBody cfg n) (finishBody (cfg.less kinds lines) n) := by
  refine mirrors_current.bind fun _ => (mirrors_defer _ _).bind fun _ => ?_
  exact (mirrors_record _ rfl).bind fun _ => mirrors_ite (mirrors_defer _ _) (mirrors_pure _)

theorem mirrors_visitExample (hv : MirrorsVisit tell v w) (base : Shift) (docLine : Datum)
    (e : Example) (tree : Node) : Mirrors tell (visitExample v base docLine e tree)
      (visitExample w base docLine e tree) := by
  refine (mirrors_lift _).bind fun shift => mirrors_get fun s => ?_
  refine (mirrors_modify ?_).bind fun _ => ?_
  · exact fun _ => rfl
  · refine (mirrors_visitChildren hv _).bind fun _ => mirrors_modify ?_
    exact fun _ => rfl

theorem mirrors_visitBody (hv : MirrorsVisit tell v w) (n : Node) :
    Mirrors tell (visitBody v n) (visitBody w n) := by
  refine (mirrors_lift _).bind fun body => ?_
  split
  · exact mirrors_visitAll hv n _
  · exact hv _ n

section Reports

variable (h : Retells tell cfg kinds lines []) (hv : MirrorsVisit tell v w)

include h hv

theorem mirrors_runExample (n : Node) (base : Shift) (docLine : Datum) (e : Example) :
    Mirrors tell (runExample cfg v n base docLine e)
      (runExample (cfg.less kinds lines) w n base docLine e) := by
  unfold runExample
  rw [Setup.less_compile]
  split
  · exact mirrors_visitExample hv _ _ _ _
  · exact (mirrors_lift _).bind fun _ => (mirrors_datum _).bind fun _ => h _ _
  · exact mirrors_throw _ _

theorem mirrors_runDoctests (n : Node) :
    Mirrors tell (runDoctests cfg v n) (runDoctests (cfg.less kinds lines) w n) := by
  refine mirrors_get fun s => ?_
  simp only [State.retold_docstringOf, State.retold_shift]
  refine (mirrors_lift _).bind fun found => ?_
  split
  · exact mirrors_pure _
  · split
    · exact mirrors_pure _
    · exact mirrors_inScope _ (mirrors_forM _ fun e => mirrors_runExample h hv n _ _ e)

theorem mirrors_runBody (n : Node)
    (parameters : List Datum) : Mirrors tell (runBody cfg v n parameters)
      (runBody (cfg.less kinds lines) w n parameters) := by
  have hparameters : Mirrors tell (bindParameters cfg n parameters)
      (bindParameters (cfg.less kinds lines) n parameters) :=
    mirrors_forM parameters fun _ => mirrors_bind h n _ false
  refine mirrors_inScope _ (hparameters.bind fun _ => ?_)
  exact (mirrors_visitBody hv n).bind fun _ => mirrors_finishBody cfg kinds lines n

theorem mirrors_runTask (task : Task) :
    Mirrors tell (runTask cfg v task) (runTask (cfg.less kinds lines) w task) := by
  cases task with
  | body n parameters => exact mirrors_runBody h hv n parameters
  | doctests n => exact mirrors_runDoctests h hv n
  | assignments => exact (told_reportUnusedAssignments (List.mem_singleton.mpr rfl)).mirrors h
  | returns n => exact (told_reportReturns (List.mem_singleton.mpr rfl) n).mirrors h

theorem mirrors_runEntries (q : Queue) (i : Nat) (entries : List Deferred) :
    Mirrors tell (runEntries cfg v q i entries)
      (runEntries (cfg.less kinds lines) w q i entries) := by
  induction entries generalizing i with
  | nil => exact mirrors_pure _
  | cons d rest ih =>
    refine (mirrors_modify ?_).bind fun _ => (mirrors_runTask h hv d.task).bind fun _ => ih _
    exact fun _ => rfl

theorem mirrors_drainWithin (q : Queue) (fuel done : Nat) : Mirrors tell (drainWithin cfg v q fuel done)
      (drainWithin (cfg.less kinds lines) w q fuel done) := by
  induction fuel generalizing done with
  | zero =>
    unfold drainWithin
    refine mirrors_get fun s => ?_
    simp only [State.retold_queue]
    split
    · exact mirrors_throw _ _
    · exact mirrors_ite (mirrors_pure _) (mirrors_throw _ _)
  | succ fuel ih =>
    unfold drainWithin
    refine mirrors_get fun s => ?_
    simp only [State.retold_queue]
    split
    · exact mirrors_throw _ _
    · refine mirrors_ite (mirrors_pure _) ?_
      exact (mirrors_runEntries h hv q _ _).bind fun _ => ih _

theorem mirrors_drainWith (q : Queue) :
    Mirrors tell (drainWith cfg v q) (drainWith (cfg.less kinds lines) w q) := by
  refine mirrors_get fun s => ?_
  rw [State.retold_queue]
  exact mirrors_drainWithin h hv q _ 0

theorem mirrors_passes : Mirrors tell (passes cfg v) (passes (cfg.less kinds lines) w) := by
  refine (mirrors_visitChildren hv _).bind fun _ => (mirrors_drainWith h hv _).bind fun _ => ?_
  refine (mirrors_modify ?_).bind fun _ => mirrors_drainWith h hv _
  exact fun _ => rfl

end Reports

theorem mirrors_reportRemarks (h : ∀ named, Retells tell cfg kinds lines named) :
    Mirrors tell (reportRemarks cfg) (reportRemarks (cfg.less kinds lines)) := by
  refine mirrors_ite (mirrors_pure _) (mirrors_forM _ fun said => ?_)
  exact (mirrors_lift _).bind fun remarks => mirrors_forM remarks fun r => h _ _ _

theorem mirrors_run (h : ∀ named, Retells tell cfg kinds lines named) :
    Mirrors tell (run cfg) (run (cfg.less kinds lines)) := by
  have hvisit := mirrors_visit (h [])
  refine (mirrors_passes (h []) hvisit).bind fun _ => (mirrors_modify ?_).bind fun _ => ?_
  · exact fun _ => rfl
  · refine mirrors_popScope.bind fun _ => (told_judgeDead.mirrors (h [])).bind fun _ => ?_
    exact mirrors_reportRemarks h

end Check

/-- The list names the kind, by its series, its code or its number. -/
def Kind.listedIn (items : List Datum) (k : Kind) : Bool :=
  Datum.among items k.series || Datum.among items k.code ||
    Datum.among items (.text (toString k.number))

/-- The diagnostic is neither of a kind that `kinds` names nor on one of the lines. -/
def Diagnostic.spared (kinds lines : List Datum) (d : Diagnostic) : Bool :=
  !d.kind.listedIn kinds && !Datum.among lines d.line

theorem Kind.listedIn_append (xs ys : List Datum) (k : Kind) :
    k.listedIn (xs ++ ys) = (k.listedIn xs || k.listedIn ys) := by
  simp only [listedIn, Datum.among, List.any_append]
  ac_rfl

variable {k : Kind} {filename : Datum} {args : List Datum} {named : Named} {d : Diagnostic}

theorem Kind.kind_of_about {loc : Datum} (h : k.about filename loc args named = .ok d) :
    d.kind = k := by
  unfold about at h
  dsimp only at h
  split at h
  all_goals
    obtain ⟨line, -, h⟩ := bind_eq_ok.mp h
    obtain ⟨message, -, h⟩ := bind_eq_ok.mp h
    split at h
    · obtain ⟨keyword, -, h⟩ := bind_eq_ok.mp h
      cases h
      rfl
    · cases h
      rfl

theorem Kind.kind_of_compose (h : k.compose filename args named = .ok d) : d.kind = k := by
  unfold compose at h
  dsimp only at h
  split at h
  · cases h
  · split at h
    · obtain ⟨bound, -, h⟩ := bind_eq_ok.mp h
      exact kind_of_about h
    · obtain ⟨bound, -, h⟩ := bind_eq_ok.mp h
      split at h
      · obtain ⟨line, -, h⟩ := bind_eq_ok.mp h
        obtain ⟨column, -, h⟩ := bind_eq_ok.mp h
        exact kind_of_about h
      · exact kind_of_about h
    · obtain ⟨bound, -, h⟩ := bind_eq_ok.mp h
      obtain ⟨shown, -, h⟩ := bind_eq_ok.mp h
      split at h
      · cases h
      · exact kind_of_about h

namespace State

def noting (e : Event) (s : State) : State := { s with history := e :: s.history }

def telling (d : Diagnostic) (s : State) : State := { s with messages := s.messages.push d }

variable {keep : Diagnostic → Bool} {d : Diagnostic}

theorem retold_telling (s : State) (h : keep d = true) :
    (s.telling d).retold (.filter keep) = (s.retold (.filter keep)).telling d := by
  simp [retold, Retelling.filter, telling, h]

theorem retold_telling_of_not (s : State) (h : keep d = false) :
    (s.telling d).retold (.filter keep) = s.retold (.filter keep) := by
  simp [retold, Retelling.filter, telling, h]

end State

namespace Check

section Reports

variable {cfg : Setup} {base kinds lines : List Datum} {named : Named}

theorem isIgnored_eq (h : cfg.ignored = .list base) (k : Kind) :
    isIgnored cfg k = .ok (k.listedIn base) := by
  unfold isIgnored Kind.listedIn
  rw [h]
  simp only [Datum.lists, ok_bind]
  cases Datum.among base k.series <;> cases Datum.among base k.code <;> rfl

theorem reportWith_apply (hbase : cfg.ignored = .list base)
    (hlines : cfg.ignoredLines = .list lines) (k : Kind) (args : List Datum) (s : State)
    (hnamed : ¬ named.any fun e => reservedArguments.contains e.1) : reportWith cfg k args named s =
      if k.listedIn base then .ok () (s.noting (.reported k args))
      else match k.compose (.text cfg.filename) args (("verbose", cfg.verbose) :: named) with
        | .error e => .error e (s.noting (.reported k args))
        | .ok d =>
          if Datum.among lines d.line then .ok () (s.noting (.reported k args))
          else .ok () ((s.noting (.reported k args)).telling d) := by
  unfold reportWith
  dsimp only
  rw [if_neg hnamed, isIgnored_eq hbase, hlines]
  cases k.listedIn base with
  | true => rfl
  | false =>
    cases k.compose (.text cfg.filename) args (("verbose", cfg.verbose) :: named) with
    | error e => rfl
    | ok d =>
      cases hline : Datum.among lines d.line <;>
        simp [Datum.lists, lift, record, State.noting, State.telling, hline]

theorem reportWith_of_reserved (h : named.any fun e => reservedArguments.contains e.1) (k : Kind)
    (args : List Datum) (s : State) : reportWith cfg k args named s = .error .wrongType s := by
  unfold reportWith
  dsimp only
  rw [if_pos h]
  rfl

/-- A report that longer lists let through is there with the shorter ones too. -/
theorem retells_of_lists {old more rows : List Datum} (hbase : cfg.ignored = .list base)
    (hlines : cfg.ignoredLines = .list old)
    (hmore : ∀ k : Kind, k.listedIn more = (k.listedIn kinds || k.listedIn base))
    (hrows : ∀ x, Datum.among rows x = (Datum.among lines x || Datum.among old x)) :
    Retells (.filter (Diagnostic.spared kinds lines)) cfg (.list more) (.list rows) named := by
  intro k args s a t h
  by_cases hnamed : named.any fun e => reservedArguments.contains e.1
  · rw [reportWith_of_reserved hnamed] at h
    cases h
  · have hless := fun s =>
      @reportWith_apply (cfg.less (.list more) (.list rows)) more rows named rfl rfl
      k args s hnamed
    rw [reportWith_apply hbase hlines k args s hnamed] at h
    rw [hless, hmore]
    cases hk : k.listedIn base with
    | true =>
      rw [hk] at h
      cases h
      rw [Bool.or_true]
      rfl
    | false =>
      rw [hk] at h
      rw [Bool.or_false]
      cases hd : k.compose (.text cfg.filename) args (("verbose", cfg.verbose) :: named) with
      | error e =>
        rw [hd] at h
        cases h
      | ok d =>
        rw [hd] at h
        dsimp only at h
        have hkind := Kind.kind_of_compose hd
        simp only [Setup.less_filename, Setup.less_verbose, hd, hrows]
        cases hold : Datum.among old d.line with
        | true =>
          rw [hold] at h
          cases h
          rw [Bool.or_true]
          cases k.listedIn kinds <;> rfl
        | false =>
          rw [hold] at h
          cases h
          rw [Bool.or_false]
          cases hlisted : k.listedIn kinds with
          | true =>
            rw [State.retold_telling_of_not _ (by simp [Diagnostic.spared, hkind, hlisted])]
            rfl
          | false =>
            cases hline : Datum.among lines d.line with
            | true =>
              rw [State.retold_telling_of_not _ (by simp [Diagnostic.spared, hline])]
              rfl
            | false =>
              rw [State.retold_telling _ (by simp [Diagnostic.spared, hkind, hlisted, hline])]
              rfl

theorem retells_of_list (hbase : cfg.ignored = .list base) (hlines : cfg.ignoredLines = .list []) :
    Retells (.filter (Diagnostic.spared kinds lines)) cfg (.list (kinds ++ base)) (.list lines)
      named :=
  retells_of_lists hbase hlines (Kind.listedIn_append _ _) fun _ => (Bool.or_false _).symm

/-- A check that gets through leaves no message of a kind that is ignored: left out of them all, it
is the same check. -/
theorem not_listed_of_run (hkinds : cfg.ignored = .list kinds)
    (hlines : cfg.ignoredLines = .list lines) {next : Nat} {t : State}
    (h : run cfg (State.initial next) = .ok () t) {d : Diagnostic} (hd : d ∈ t.messages) :
    d.kind.listedIn kinds = false := by
  have hretells (named : Named) := @retells_of_lists cfg kinds kinds lines named lines kinds lines
    hkinds hlines (fun _ => (Bool.or_self _).symm) fun _ => (Bool.or_self _).symm
  have hagain := mirrors_run hretells _ _ _ h
  have hsame : cfg.less (.list kinds) (.list lines) = cfg := by
    rw [Setup.less, ← hkinds, ← hlines]
  have hstart : (State.initial next).retold (.filter (Diagnostic.spared kinds lines)) =
      State.initial next := rfl
  rw [hsame, hstart, h] at hagain
  have hretold := (EStateM.Result.ok.inj hagain).2
  rw [hretold] at hd
  have hspared := (Array.mem_filter.mp hd).2
  simp only [Diagnostic.spared, Bool.and_eq_true, Bool.not_eq_true'] at hspared
  exact hspared.1

end Reports

end Check

namespace Settings

theorem ignoredForKey_ne (base : String) : ignoredForKey base ≠ ignoredKey := by
  intro h
  have hlength := congrArg String.length h
  rw [ignoredForKey, String.length_append, String.length_append] at hlength
  have : "_for_".length = 5 := rfl
  omega

/-- What is ignored in a file is the general list with the same items after it, whatever the general
list is. -/
theorem exists_ignoredIn_set {settings : Settings} {filename : String} {d : Datum}
    (h : (settings.set ignoredKey (.list [])).ignoredIn filename = .ok d) :
    ∃ added, d = .list added ∧ ∀ general,
      (settings.set ignoredKey (.list general)).ignoredIn filename =
        .ok (.list (general ++ added)) := by
  simp only [ignoredIn, lookup_set, if_true, ignoredForKey_ne, if_false, Option.getD_some] at h ⊢
  cases hl : settings.lookup (ignoredForKey (Path.base filename)) with
  | none =>
    rw [hl] at h
    cases h
    exact ⟨[], rfl, fun general => by rw [List.append_nil]⟩
  | some specific =>
    rw [hl] at h
    dsimp only at h ⊢
    by_cases htrue : specific.truthy
    · rw [if_pos htrue] at h
      simp only [extend] at h ⊢
      cases hitems : specific.items with
      | error e =>
        rw [hitems] at h
        cases h
      | ok added =>
        rw [hitems] at h
        cases h
        exact ⟨added, rfl, fun general => by rw [if_pos htrue]; rfl⟩
    · rw [if_neg htrue] at h
      cases h
      exact ⟨[], rfl, fun general => by rw [if_neg htrue, List.append_nil]⟩

theorem any_set (settings : Settings) (key : String) (value other : Datum) (p : String → Bool) :
    ((settings.set key value).any fun e => p e.1) =
      (settings.set key other).any fun e => p e.1 := by
  induction settings with
  | nil => rfl
  | cons e rest ih =>
    by_cases he : e.1 = key
    · simp [set, he]
    · simp [set, he, ih]

end Settings

namespace Request

/-- The same request with other lists of what is ignored, in general and by line. -/
def ignoring (r : Request) (kinds lines : List Datum) : Request :=
  { r with
    settings := r.settings.set Settings.ignoredKey (.list kinds)
    ignoredLines := .list lines }

variable {r : Request} {cfg : Setup}

/-- Settings that differ only in what is ignored give setups that differ only there. -/
theorem setup_of_settings (h : r.setup = .ok cfg) {settings : Settings} {ignored lines : Datum}
    (hreserved : (settings.any fun e => reservedNames.contains e.1) =
      r.settings.any fun e => reservedNames.contains e.1)
    (hverbose : settings.lookup "verbose" = r.settings.lookup "verbose")
    (hdoctests : settings.lookup "run_doctests" = r.settings.lookup "run_doctests")
    (hignored : ∀ filename, r.filename = .text filename →
      settings.ignoredIn filename = .ok ignored) :
    { r with settings := settings, ignoredLines := lines }.setup =
      .ok { cfg with ignored := ignored, ignoredLines := lines } := by
  unfold setup at h ⊢
  dsimp only at h ⊢
  rw [hreserved, hverbose, hdoctests]
  split at h
  · cases h
  · rename_i hnone
    rw [if_neg hnone]
    split at h
    · rename_i filename hname
      rw [hignored filename hname, ok_bind]
      obtain ⟨old, -, h⟩ := bind_eq_ok.mp h
      split at h
      · rename_i htrue
        obtain ⟨items, hitems, h⟩ := bind_eq_ok.mp h
        obtain ⟨builtins, hbuiltins, h⟩ := bind_eq_ok.mp h
        cases h
        rw [if_pos htrue, hitems, ok_bind, hbuiltins]
        rfl
      · rename_i hfalse
        cases h
        rw [if_neg hfalse]
        rfl
    · cases h

theorem setup_ignoring (h : (r.ignoring [] []).setup = .ok cfg) :
    ∃ base, cfg.ignored = .list base ∧ cfg.ignoredLines = .list [] ∧ ∀ kinds lines,
      (r.ignoring kinds lines).setup = .ok (cfg.less (.list (kinds ++ base)) (.list lines)) := by
  obtain ⟨filename, hname, hignored, hlines⟩ := Work.ignored_of_setup h
  obtain ⟨base, hbase, hadded⟩ := Settings.exists_ignoredIn_set hignored
  have hlookup : ∀ (key : String) (kinds : List Datum), key ≠ Settings.ignoredKey →
      (r.settings.set Settings.ignoredKey (.list kinds)).lookup key = r.settings.lookup key := by
    intro key kinds hkey
    rw [Settings.lookup_set, if_neg hkey]
  refine ⟨base, hbase, hlines, fun kinds lines => ?_⟩
  refine setup_of_settings h (Settings.any_set _ _ _ _ _) ?_ ?_ ?_
  · exact (hlookup _ _ (by decide)).trans (hlookup _ _ (by decide)).symm
  · exact (hlookup _ _ (by decide)).trans (hlookup _ _ (by decide)).symm
  · intro other hother
    cases hname.symm.trans hother
    exact hadded kinds

theorem run_eq_iff {t : State} : r.run = (t, none) ↔
    ∃ cfg, r.setup = .ok cfg ∧ Check.run cfg (State.initial r.tree.size) = .ok () t := by
  unfold run
  cases hsetup : r.setup with
  | error e => simp
  | ok cfg => cases hrun : Check.run cfg (State.initial r.tree.size) <;> simp [hrun]

/-- A check that ignores kinds and lines ends in the state in which the check ends that ignores
neither, less the messages of those kinds and on those lines. -/
theorem ignoring_filters_messages (r : Request) {t : State}
    (h : (r.ignoring [] []).run = (t, none)) (kinds lines : List Datum) :
    (r.ignoring kinds lines).run =
      ({ t with messages := t.messages.filter (Diagnostic.spared kinds lines) }, none) := by
  obtain ⟨cfg, hsetup, hrun⟩ := run_eq_iff.mp h
  obtain ⟨base, hbase, hlines, hless⟩ := setup_ignoring hsetup
  have hretells (named : Named) := @Check.retells_of_list cfg base kinds lines named hbase hlines
  exact run_eq_iff.mpr ⟨_, hless kinds lines, Check.mirrors_run hretells _ _ _ hrun⟩

end Request

namespace Sample

/-- A module with an import that nothing uses and two loads of a name that nothing binds. -/
def careless : Request where
  tree := (setup [
    .node ⟨0, "Import", some (.of 1 0), [("names", .list [
      .node ⟨0, "alias", none, [("name", .text "os"), ("asname", .null)]⟩])]⟩,
    name 2 "x" "Load", name 3 "x" "Load"]).root
  filename := .text Check.noFile
  dialect := .threeFour
  builtins := .null
  ignoredLines := .null
  settings := []
  traced := false
  compile := .ofTable []
  remarks := []

/-- Whether the check gets through to a state of which the test holds. -/
def completes (r : Request) (test : State → Bool) : Bool :=
  match r.run with
  | (t, none) => test t
  | _ => false

theorem completes_eq_true {r : Request} {test : State → Bool} (h : completes r test = true) :
    ∃ t, r.run = (t, none) ∧ test t = true := by
  unfold completes at h
  split at h
  · exact ⟨_, ‹_›, h⟩
  · cases h

end Sample

/-- The series of unused imports and the second line leave one message of three. -/
theorem Request.ignoring_filters_messages_careless :
    ∃ t, (Sample.careless.ignoring [] []).run = (t, none) ∧ t.messages.size = 3 ∧
      (Sample.careless.ignoring [.text "E100"] [.int 2]).run =
        ({ t with messages := t.messages.filter (Diagnostic.spared [.text "E100"] [.int 2]) },
          none) ∧
      (t.messages.filter (Diagnostic.spared [.text "E100"] [.int 2])).size = 1 := by
  have hcompletes : Sample.completes (Sample.careless.ignoring [] []) (fun t =>
      t.messages.size == 3 &&
        (t.messages.filter (Diagnostic.spared [.text "E100"] [.int 2])).size == 1) = true := by
    decide +kernel
  obtain ⟨t, hrun, hsize⟩ := Sample.completes_eq_true hcompletes
  rw [Bool.and_eq_true, beq_iff_eq, beq_iff_eq] at hsize
  exact ⟨t, hrun, hsize.1, Request.ignoring_filters_messages _ hrun _ _, hsize.2⟩

end ScopeLint
