import ScopeLint.Proofs.Diagnostic.SourceLines
import ScopeLint.Proofs.Session.PackageFiles

/-! # Sources that cannot be compiled

A source that cannot be compiled is told of once, and counted once. -/
namespace ScopeLint

namespace Outcome

/-- A source that cannot be compiled. A syntax error has a message; where it stands may not be known,
nor the text there. -/
inductive Failing : Outcome → Prop where
  | raised (kind text : String) : Failing (.failure kind text)
  | syntaxError (message : String) (row offset : Option Int) (text : Option String) :
      Failing (.syntaxError (.text message) (row.elim .null .int) (offset.elim .null .int)
        (text.elim .null .text))

/-- Failures that a check does not tell of, but passes on: those that end the process, and a syntax
error in an empty text, which has no last line to show. -/
inductive PassedOn : Outcome → Prop where
  | fatal (kind text : String) : kind ∈ Work.fatalFailures → PassedOn (.failure kind text)
  | empty {message row offset : Datum} {text : String} : text = "" →
      PassedOn (.syntaxError message row offset (.text text))

end Outcome

/-- What is told of a source that cannot be compiled. -/
inductive Report.OfFailure (filename : Datum) : Report → Prop where
  | trouble : OfFailure filename (.trouble filename Work.undecodable)
  | syntaxError {d : Diagnostic} : d.kind = .sourceSyntaxError → OfFailure filename (.diagnostic d)

namespace Work

variable {host : Host} {files : FileTree} {path code : String} {filename given : Datum}
  {settings overrides : Settings} {s t : Session}

theorem account_of_failing
    (hskip : isSkipped ((settings.lookup "skip").getD (.list [])) filename = .ok false)
    (hfailing : (host.compile code filename).Failing) :
    (¬(host.compile code filename).PassedOn → ∃ r, r.OfFailure filename ∧
      account host code filename settings = ⟨.ok 1, [r]⟩) ∧
    ((host.compile code filename).PassedOn →
      ∃ e, account host code filename settings = ⟨.error e, []⟩) := by
  unfold account
  rw [hskip]
  dsimp only
  generalize host.compile code filename = result at hfailing
  cases hfailing with
  | raised kind text =>
    refine ⟨fun hpassed => ⟨_, .trouble, ?_⟩, fun hpassed => ⟨.fault (.raised kind text), ?_⟩⟩
    · have hkind : ¬kind ∈ fatalFailures := fun hkind => hpassed (.fatal kind text hkind)
      simp [hkind]
    · cases hpassed with
      | fatal _ _ hkind => simp [hkind]
  | syntaxError message row offset text =>
    cases text with
    | none => exact ⟨fun _ => ⟨_, .trouble, rfl⟩, nofun⟩
    | some text =>
      constructor
      · intro hpassed
        have htext : Text.lines text.toList ≠ [] := by
          intro hnil
          exact hpassed (.empty (by simpa using (Text.linesFrom_eq_nil_iff.mp hnil).2))
        have hd := Kind.compose_sourceSyntaxError (List.getLast?_eq_some_getLast htext) filename
          (row.elim .null .int) ((settings.lookup "verbose").getD .null) message offset
        refine ⟨_, .syntaxError (Kind.kind_of_compose hd), ?_⟩
        change accountOf 1 (Kind.compose _ _ [_, _, _, .text text] _) = _
        rw [hd]
        rfl
      · intro hpassed
        cases hpassed with
        | empty hempty =>
          subst hempty
          exact ⟨_, rfl⟩

/-- A source that cannot be compiled is told of once and counted once, whatever is known of the
failure, unless the failure is one that is passed on; then nothing is told. -/
theorem outcome_of_failing (code : String) (hs : s.Faithful host files)
    (hprepare : prepare host filename given overrides s = .ok (path, settings) t)
    (hskip : isSkipped ((settings.lookup "skip").getD (.list [])) filename = .ok false)
    (hfailing : (host.compile code filename).Failing) :
    (¬(host.compile code filename).PassedOn → ∃ r : Report, r.OfFailure filename ∧
      outcome (check host code filename given overrides) s = (.ok (1, overrides), [r])) ∧
    ((host.compile code filename).PassedOn → ∃ e,
      outcome (check host code filename given overrides) s = (.error e, [])) := by
  obtain ⟨htold, hpassed⟩ := @account_of_failing host code filename settings hskip hfailing
  have hlist : listInForce host code filename settings = none := by
    unfold listInForce
    rw [hskip]
    clear htold hpassed
    generalize host.compile code filename = result at hfailing
    cases hfailing <;> rfl
  rw [outcome_check hs, hprepare]
  dsimp only
  rw [hlist]
  constructor
  · intro h
    obtain ⟨r, hr, haccount⟩ := htold h
    exact ⟨r, hr, by rw [haccount]; rfl⟩
  · intro h
    obtain ⟨e, haccount⟩ := hpassed h
    exact ⟨e, by rw [haccount]; rfl⟩

end Work

/-- A file whose source is a syntax error. -/
def Call.Example.failing (row offset : Option Int) (text : Option String) : Host :=
  { Call.Example.host with
    compile := fun _ _ => .syntaxError (.text "invalid syntax") (row.elim .null .int)
      (offset.elim .null .int) (text.elim .null .text) }

namespace Work

/-- A syntax error in a text of two line breaks, with an offset far to the left of them. -/
theorem outcome_of_failing_blank_text : ∃ r : Report, r.OfFailure (.text "a.py") ∧
    outcome (check (Call.Example.failing (some 1) (some (-7)) (some "\r\n\n")) "" (.text "a.py")
      (.text ".") []) (Session.initial Call.Example.bare) = (.ok (1, []), [r]) := by
  refine (outcome_of_failing "" (Session.faithful_initial _ _) rfl rfl ?_).1 ?_
  · exact .syntaxError "invalid syntax" (some 1) (some (-7)) (some "\r\n\n")
  · intro hpassed
    cases hpassed with
    | empty hempty => exact absurd hempty (by decide)

/-- A syntax error in an empty text: the check fails, and tells nothing. -/
theorem outcome_of_empty_text :
    outcome (check (Call.Example.failing (some 1) none (some "")) "" (.text "a.py") (.text ".") [])
      (Session.initial Call.Example.bare) = (.error (.fault .outOfRange), []) := by
  rfl

end Work

end ScopeLint
