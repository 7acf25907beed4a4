import ScopeLint.Proofs.Checker.Ignoring
import ScopeLint.Proofs.Checker.NameReports
import ScopeLint.Proofs.Checker.ScopeCensus

/-! # Where messages come from

Every message of a check comes from a report on record: in the order of the reports, each report gives
its diagnostic, unless the kind or the line is ignored. Last come the remarks of further checkers. -/
namespace ScopeLint

variable {cfg : Setup} {next : Nat} {t : State}

/-- The diagnostic that a report comes to, unless its kind or its line is ignored. -/
def Setup.message? (cfg : Setup) (k : Kind) (args : List Datum) (named : Named) : Option Diagnostic :=
  match Check.isIgnored cfg k,
    k.compose (.text cfg.filename) args (("verbose", cfg.verbose) :: named) with
  | .ok false, .ok d =>
    match cfg.ignoredLines.lists d.line with
    | .ok false => some d
    | _ => none
  | _, _ => none

theorem Setup.kind_of_message? {k : Kind} {args : List Datum} {named : Named} {d : Diagnostic}
    (h : cfg.message? k args named = some d) : d.kind = k := by
  unfold message? at h
  split at h
  · rename_i hd
    split at h
    · cases h
      exact Kind.kind_of_compose hd
    · cases h
  · cases h

def Event.message? (cfg : Setup) : Event → Option Diagnostic
  | .reported k args => cfg.message? k args []
  | _ => none

def Remark.message? (cfg : Setup) (r : Remark) : Option Diagnostic :=
  cfg.message? r.kind r.args r.named

/-- The messages that the reports on record come to. -/
def Setup.messages (cfg : Setup) : Retelling where
  messages history _ := (history.reverse.filterMap (Event.message? cfg)).toArray
  messages_cons {e} history _ he := by
    have hnone : e.message? cfg = none := by
      cases e with
      | reported => cases he
      | _ => rfl
    simp [hnone]

namespace Check

variable {s : State}

/-- A report that gets through does so in every state, and does the same there. -/
theorem reportWith_of_ok {k : Kind} {args : List Datum} {named : Named}
    (h : reportWith cfg k args named s = .ok () t) (r : State) :
    reportWith cfg k args named r = .ok () { r with
      history := .reported k args :: r.history
      messages := r.messages ++ (cfg.message? k args named).toArray } := by
  unfold reportWith at h ⊢
  unfold Setup.message?
  dsimp only at h ⊢
  split at h
  · cases h
  rename_i hnamed
  rw [if_neg hnamed]
  obtain ⟨_, _, hrecord, h⟩ := bind_apply_eq_ok.mp h
  cases hrecord
  obtain ⟨ignored, hignored, h⟩ := lift_bind_eq_ok.mp h
  rw [hignored]
  cases ignored with
  | true => simp [record, lift]
  | false =>
    obtain ⟨d, hd, h⟩ := lift_bind_eq_ok.mp h
    obtain ⟨hidden, hhidden, -⟩ := lift_bind_eq_ok.mp h
    rw [hd]
    dsimp only
    rw [hhidden]
    cases hidden <;> simp [record, lift, hhidden]

theorem retells_messages (cfg : Setup) : Retells cfg.messages cfg cfg.ignored cfg.ignoredLines [] := by
  intro k args s _ t h
  obtain ⟨-, rfl⟩ := EStateM.Result.ok.inj (h.symm.trans (reportWith_of_ok h s))
  refine (reportWith_of_ok h _).trans ?_
  cases hmessage : cfg.message? k args [] <;>
    simp [State.retold, Setup.messages, Event.message?, hmessage]

/-- A step that has its like with the messages that the reports on record come to. -/
theorem messages_of_mirrors {x : Check Unit} (hx : Mirrors cfg.messages x x)
    (hs : s.retold cfg.messages = s) (h : x s = .ok () t) : t.retold cfg.messages = t := by
  have hagain := hx s () t h
  rw [hs, h] at hagain
  exact (EStateM.Result.ok.inj hagain).2.symm

theorem messages_remarks {remarks : List Remark}
    (h : (remarks.forM fun r => reportWith cfg r.kind r.args r.named) s = .ok () t) :
    t.messages.toList = s.messages.toList ++ remarks.filterMap (Remark.message? cfg) := by
  induction remarks generalizing s with
  | nil =>
    cases h
    simp
  | cons r rest ih =>
    obtain ⟨_, u, hfirst, hrest⟩ := bind_apply_eq_ok.mp h
    obtain ⟨-, rfl⟩ := EStateM.Result.ok.inj (hfirst.symm.trans (reportWith_of_ok hfirst s))
    have hmessage : cfg.message? r.kind r.args r.named = r.message? cfg := rfl
    rw [ih hrest, hmessage]
    cases hr : r.message? cfg <;> simp [hr]

theorem nameReports_runEntries {q : Queue} {i : Nat} {ds : List Deferred}
    (hds : ∀ d ∈ ds, d.task.isVerdict = true) (h : runEntries cfg (visit cfg) q i ds s = .ok () t) :
    t.nameReports = s.nameReports := by
  induction ds generalizing i s with
  | nil =>
    cases h
    rfl
  | cons d rest ih =>
    obtain ⟨hd, hrest⟩ := List.forall_mem_cons.mp hds
    obtain ⟨_, r, hresume, h⟩ := bind_apply_eq_ok.mp h
    cases hresume
    obtain ⟨_, u, htask, h⟩ := bind_apply_eq_ok.mp h
    have hspeech : (s.resumed q i d).Says Kind.ofVerdicts u := (speaks_verdict hd).ok htask
    exact (ih hrest h).trans (hspeech.nameReports_eq (by decide))

end Check

/-- What a check has put on record itself, before the remarks of further checkers, first first. -/
def State.said (cfg : Setup) (t : State) : List Event :=
  (t.history.drop cfg.remarked.length).reverse

/-- After the walk and the bodies a run says nothing on names and leaves the scopes as they are. Its
messages are what the reports come to, and then the remarks. -/
theorem Check.said_of_run (h : run cfg (State.initial next) = .ok () t) :
    ∃ s, explore cfg (State.initial next) = .ok () s ∧ t.scopes = s.scopes ∧
      (t.said cfg).filterMap Event.nameReport? = s.nameReports ∧
      t.messages.toList = (t.said cfg).filterMap (Event.message? cfg) ++
        cfg.remarked.filterMap (Remark.message? cfg) := by
  obtain ⟨r, u, hpasses, -, hjudge, hremarks⟩ := run_eq_ok h
  obtain ⟨s, hexplore, hdrain⟩ := exists_explore hpasses
  obtain ⟨entries, hentries, hverdicts, -⟩ := (pending_of_explore hexplore).verdicts
  have hqueue : ({ s with functions := none } : State).assignments = some entries := hentries
  have hrun : runEntries cfg (visit cfg) .assignments 0 entries.toList
      ({ s with functions := none } : State) = .ok () r := runEntries_of_drain hqueue hverdicts hdrain
  have hjudges : r.atEnd.Says judged u := told_judgeDead.ok hjudge
  obtain ⟨hspeech, hhistory⟩ := reportRemarks_eq_ok hremarks
  have hsaid : t.said cfg = u.history.reverse := by
    have hlength : cfg.remarked.length = (cfg.remarked.map Remark.event).reverse.length := by simp
    rw [State.said, hhistory, hlength, List.drop_left]
  refine ⟨s, hexplore, ?_, ?_, ?_⟩
  · rw [hspeech.scopes_eq, hjudges.scopes_eq]
    exact (runEntries_eq_ok hverdicts hrun).1.scopes_eq
  · have hverdict : r.nameReports = ({ s with functions := none } : State).nameReports :=
      nameReports_runEntries hverdicts hrun
    have hend : r.atEnd.nameReports = r.nameReports := rfl
    have hjudged := hjudges.nameReports_eq (by decide)
    rw [hsaid]
    exact hjudged.trans (hend.trans hverdict)
  · have hretells := retells_messages cfg
    have hr : r.retold cfg.messages = r :=
      messages_of_mirrors (mirrors_passes hretells (mirrors_visit hretells)) rfl hpasses
    have hatEnd : r.atEnd.retold cfg.messages = r.atEnd := congrArg State.atEnd hr
    have hu := messages_of_mirrors (told_judgeDead.mirrors hretells) hatEnd hjudge
    have htold : u.messages.toList = u.history.reverse.filterMap (Event.message? cfg) := by
      rw [← hu]
      rfl
    rw [messages_remarks (forM_remarked_eq_ok hremarks), hsaid, htold]

end ScopeLint
