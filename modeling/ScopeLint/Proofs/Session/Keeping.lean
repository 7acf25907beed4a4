import ScopeLint.Proofs.Session.Configured
import ScopeLint.Proofs.Settings

/-! # What a check does to a session

Under given settings a check answers and tells the same in every session. All that it leaves behind
is the list of what is ignored that the checker was started with. -/
namespace ScopeLint

namespace Session

def tell (s : Session) (told : List Report) : Session :=
  { s with reports := s.reports ++ told.toArray }

@[simp] theorem tell_nil (s : Session) : s.tell [] = s := by simp [tell]

@[simp] theorem tell_tell (s : Session) (told more : List Report) :
    (s.tell told).tell more = s.tell (told ++ more) := by simp [tell]

theorem Pristine.tell {host : Host} {files : FileTree} {s : Session} (told : List Report) :
    (s.tell told).Pristine host files ↔ s.Pristine host files :=
  ⟨fun h => ⟨h.files_eq, h.ignored_eq, h.configured_all, h.options_all⟩,
    fun h => ⟨h.files_eq, h.ignored_eq, h.configured_all, h.options_all⟩⟩

theorem extended_reports (s : Session) (path : String) (items : List Datum) :
    (s.extended path items).reports = s.reports := by
  rw [extended, apply_ite reports]
  exact ite_self _

end Session

namespace Work

variable {α β : Type} {overrides : Settings} {items : List Datum}

@[simp] theorem lift_ok (a : α) : lift (.ok a) = pure a := rfl

@[simp] theorem lift_error (e : Fault) : (lift (.error e) : Work α) = throw (.fault e) := rfl

theorem forM_report (f : α → Report) (xs : List α) (s : Session) :
    (xs.forM fun x => report (f x)) s = .ok ⟨⟩ (s.tell (xs.map f)) := by
  induction xs generalizing s with
  | nil => simp
  | cons x rest ih =>
    have hfirst : report (f x) s = .ok ⟨⟩ (s.tell [f x]) := by simp [report, Session.tell]
    change (report (f x) >>= fun _ => rest.forM fun x => report (f x)) s = _
    rw [bind_apply, hfirst]
    simp [ih]

/-- What some work answers, and what it tells meanwhile. -/
structure Account where
  answer : Except Failure Nat
  told : List Report

/-- A diagnostic is told of if it can be made up. -/
def accountOf (count : Nat) : Except Fault Diagnostic → Account
  | .error e => ⟨.error (.fault e), []⟩
  | .ok d => ⟨.ok count, [.diagnostic d]⟩

/-- The trace of the checker, and then what it has found by line. -/
def accountFound (request : Request) : Account :=
  let notices := request.run.1.trace.toList.map fun line => .notice (line ++ "\n")
  match request.run.2, Diagnostic.sortByLine request.run.1.messages.toList with
  | some e, _ => ⟨.error (.fault e), notices⟩
  | none, .error e => ⟨.error (.fault e), notices⟩
  | none, .ok found => ⟨.ok found.length, notices ++ found.map .diagnostic⟩

def accountSkipped (settings : Settings) (filename : Datum) : Account :=
  let verbose := (settings.lookup "verbose").getD (.bool false)
  let ignored := (settings.lookup Settings.ignoredKey).getD (.list [])
  if ((settings.lookup "directly_being_checked").getD .null).same (.int 1) then
    accountOf 1 (Kind.fileSkipped.compose filename [] [])
  else if verbose.truthy then
    match anyOf (fun code => ignored.lists (.text code)) ["W200", "W201"] with
    | .error e => ⟨.error (.fault e), []⟩
    | .ok true => ⟨.ok 0, []⟩
    | .ok false => accountOf 0 (Kind.fileSkipped.compose filename [.null] [("verbose", verbose)])
  else ⟨.ok 0, []⟩

def accountTree (host : Host) (tree : Node) (code : String) (filename : Datum)
    (settings : Settings) : Account :=
  match Comment.suppressedRows host.seesComments code with
  | .error e => ⟨.error (.scan e), []⟩
  | .ok rows => accountFound (requestFor host tree filename settings rows)

/-- What a check under given settings answers and tells, in whatever session. -/
def account (host : Host) (code : String) (filename : Datum) (settings : Settings) : Account :=
  match isSkipped ((settings.lookup "skip").getD (.list [])) filename with
  | .error e => ⟨.error (.fault e), []⟩
  | .ok true => accountSkipped settings filename
  | .ok false =>
    match host.compile code filename with
    | .tree tree => accountTree host tree code filename settings
    | .failure kind text =>
      if fatalFailures.contains kind then ⟨.error (.fault (.raised kind text)), []⟩
      else ⟨.ok 1, [.trouble filename undecodable]⟩
    | .syntaxError _ _ _ .null => ⟨.ok 1, [.trouble filename undecodable]⟩
    | .syntaxError message line offset text =>
      accountOf 1 (Kind.sourceSyntaxError.compose filename [message, line, offset, text]
        [("verbose", (settings.lookup "verbose").getD .null)])

/-- The overrides after a check under the list `items`: a list of the caller has been extended. -/
def keptOverrides (overrides : Settings) (items : Option (List Datum)) : Settings :=
  match items with
  | some items =>
    if (overrides.lookup Settings.ignoredKey).isSome then
      overrides.set Settings.ignoredKey (.list items)
    else overrides
  | none => overrides

theorem keptOverrides_nil (items : Option (List Datum)) : keptOverrides [] items = [] := by
  cases items <;> rfl

/-- The session after a check under the list `items`: one that nobody made up for the check has been
extended. -/
def keptSession (path : String) (overrides : Settings) (items : Option (List Datum))
    (s : Session) : Session :=
  match items with
  | some items =>
    if Settings.isAbout Settings.ignoredKey overrides then s else s.extended path items
  | none => s

theorem keptSession_reports (path : String) (overrides : Settings) (items : Option (List Datum))
    (s : Session) : (keptSession path overrides items s).reports = s.reports := by
  unfold keptSession
  cases items with
  | none => rfl
  | some items =>
    dsimp only
    split
    · rfl
    · exact Session.extended_reports s path items

theorem keepIgnored_eq (path : String) (overrides : Settings) (items : List Datum) (s : Session) :
    keepIgnored path overrides items s =
      .ok (keptOverrides overrides (some items)) (keptSession path overrides (some items) s) := by
  unfold keepIgnored keptOverrides keptSession
  by_cases hl : (overrides.lookup Settings.ignoredKey).isSome
  · simp [hl, Settings.isAbout_of_lookup hl]
  · simp only [hl]
    by_cases ha : Settings.isAbout Settings.ignoredKey overrides
    · rw [if_pos ha]
      unfold Settings.isAbout at ha
      simp [ha]
    · rw [if_neg ha]
      unfold Settings.isAbout at ha
      simp [ha]

/-- The list of what is ignored, where it is a list. -/
def ignoredList : Except Fault Setup → Option (List Datum)
  | .ok { ignored := .list items, .. } => some items
  | _ => none

/-- The list of what is ignored that the checker is started with for a tree, if it has a list. -/
def listForTree (host : Host) (tree : Node) (code : String) (filename : Datum)
    (settings : Settings) : Option (List Datum) :=
  match Comment.suppressedRows host.seesComments code with
  | .ok rows => ignoredList (requestFor host tree filename settings rows).setup
  | .error _ => none

/-- The list of what is ignored that the checker is started with, if it is started at all. -/
def listInForce (host : Host) (code : String) (filename : Datum) (settings : Settings) :
    Option (List Datum) :=
  match isSkipped ((settings.lookup "skip").getD (.list [])) filename, host.compile code filename with
  | .ok false, .tree tree => listForTree host tree code filename settings
  | _, _ => none

theorem reportFound_eq (request : Request) (s : Session) : reportFound request s =
    finish (accountFound request).answer (s.tell (accountFound request).told) := by
  unfold reportFound accountFound
  dsimp only
  rw [bind_apply, forM_report fun line => Report.notice (line ++ "\n")]
  dsimp only
  cases request.run.2 with
  | some e => rfl
  | none =>
    cases Diagnostic.sortByLine request.run.1.messages.toList with
    | error e => rfl
    | ok found =>
      change (found.forM (fun d => report (.diagnostic d)) >>= fun _ => pure found.length) _ = _
      rw [bind_apply, forM_report, Session.tell_tell]
      rfl

theorem reportSkipped_eq (settings : Settings) (filename : Datum) (s : Session) :
    reportSkipped settings filename s = finish (accountSkipped settings filename).answer
      (s.tell (accountSkipped settings filename).told) := by
  unfold reportSkipped accountSkipped
  dsimp only
  split
  · cases Kind.fileSkipped.compose filename [] [] <;> rfl
  · split
    · generalize anyOf _ ["W200", "W201"] = silent
      match silent with
      | .error e => rfl
      | .ok true => rfl
      | .ok false => cases Kind.fileSkipped.compose _ _ _ <;> rfl
    · rfl

/-- What is counted, and then answered with overrides. -/
private theorem count_eq {act : Work Nat} {answer : Except Failure Nat} {s t : Session}
    (h : act s = finish answer t) (kept : Settings) :
    (do return (← act, kept) : Work (Nat × Settings)) s = finish (answer.map (·, kept)) t := by
  cases answer <;> simp [h, finish, Except.map]

theorem checkTree_eq (host : Host) (path : String) (tree : Node) (code : String)
    (filename : Datum) (settings overrides : Settings) (s : Session) :
    checkTree host path tree code filename settings overrides s =
      finish ((accountTree host tree code filename settings).answer.map
          (·, keptOverrides overrides (listForTree host tree code filename settings)))
        ((keptSession path overrides (listForTree host tree code filename settings) s).tell
          (accountTree host tree code filename settings).told) := by
  unfold checkTree listForTree accountTree
  cases Comment.suppressedRows host.seesComments code with
  | error e => rfl
  | ok rows =>
    simp only [pure_bind]
    generalize hrequest : requestFor host tree filename settings rows = request
    have hnone : (do return (← reportFound request, overrides) : Work (Nat × Settings)) s = _ :=
      count_eq (reportFound_eq request s) overrides
    cases request.setup with
    | error e => exact hnone
    | ok cfg =>
      obtain ⟨root, name, dialect, ignored⟩ := cfg
      cases ignored with
      | list items =>
        dsimp only
        rw [bind_apply, keepIgnored_eq]
        exact count_eq (reportFound_eq request _) _
      | _ => exact hnone

/-- A check under given settings gives its account in every session, and keeps of the list that the
checker was started with what has to be kept of it. -/
theorem checkUnder_eq (host : Host) (path code : String) (filename : Datum)
    (settings overrides : Settings) (s : Session) :
    checkUnder host path code filename settings overrides s =
      finish ((account host code filename settings).answer.map
          (·, keptOverrides overrides (listInForce host code filename settings)))
        ((keptSession path overrides (listInForce host code filename settings) s).tell
          (account host code filename settings).told) := by
  unfold checkUnder account listInForce
  dsimp only
  cases isSkipped ((settings.lookup "skip").getD (.list [])) filename with
  | error e => rfl
  | ok skipped =>
    simp only [lift_ok, pure_bind]
    cases skipped with
    | true => exact count_eq (reportSkipped_eq settings filename s) overrides
    | false =>
      simp only [Bool.false_eq_true, if_false]
      generalize host.compile code filename = result
      cases result with
      | tree tree => exact checkTree_eq host path tree code filename settings overrides s
      | failure kind text =>
        dsimp only
        cases fatalFailures.contains kind <;> rfl
      | syntaxError message line offset text =>
        have hcomposed (x : Except Fault Diagnostic) :
            (do let d ← lift x; report (.diagnostic d); return (1, overrides) : Work _) s =
              finish ((accountOf 1 x).answer.map (·, overrides)) (s.tell (accountOf 1 x).told) := by
          cases x <;> rfl
        cases text <;> first | rfl | exact hcomposed _

theorem kept_of_checkUnder {answer : Except Failure Nat} {kept other : Settings} {n : Nat}
    (h : answer.map (·, kept) = .ok (n, other)) : answer = .ok n ∧ other = kept := by
  cases answer with
  | error e => cases h
  | ok count =>
    cases h
    exact ⟨rfl, rfl⟩

private theorem setup_of_ignoredList {setup : Except Fault Setup}
    (h : ignoredList setup = some items) : ∃ cfg, setup = .ok cfg ∧ cfg.ignored = .list items := by
  unfold ignoredList at h
  split at h
  · cases h
    exact ⟨_, rfl, rfl⟩
  · cases h

/-- A setup ignores in the file what the settings say, and the lines of the request. -/
theorem ignored_of_setup {request : Request} {cfg : Setup} (h : request.setup = .ok cfg) :
    ∃ name, request.filename = .text name ∧ request.settings.ignoredIn name = .ok cfg.ignored ∧
      cfg.ignoredLines = request.ignoredLines := by
  unfold Request.setup at h
  dsimp only at h
  split at h
  · cases h
  · split at h
    · rename_i name hname
      obtain ⟨ignored, hi, h⟩ := bind_eq_ok.mp h
      split at h
      · obtain ⟨items, -, h⟩ := bind_eq_ok.mp h
        obtain ⟨builtins, -, h⟩ := bind_eq_ok.mp h
        cases h
        exact ⟨name, hname, hi, rfl⟩
      · cases h
        exact ⟨name, hname, hi, rfl⟩
    · cases h

/-- Where the checker is started with a list, it is the general one with what is added for the
file. -/
theorem listInForce_eq_some {host : Host} {code : String} {filename : Datum} {settings : Settings}
    (h : listInForce host code filename settings = some items) :
    ∃ name general, filename = .text name ∧
      (settings.lookup Settings.ignoredKey).getD (.list []) = .list general ∧
      items = general ++ settings.addedIn name := by
  unfold listInForce listForTree at h
  split at h
  · split at h
    · obtain ⟨cfg, hsetup, hlist⟩ := setup_of_ignoredList h
      obtain ⟨name, hname, hi, -⟩ := ignored_of_setup hsetup
      rw [hlist] at hi
      obtain ⟨general, hg, hitems⟩ := Settings.ignoredIn_eq_list hi
      exact ⟨name, general, hname, hg, hitems⟩
    · cases h
  · cases h

end Work

end ScopeLint
