import ScopeLint.Proofs.Session.Agreement

/-! # The last mention of a code

The options of the configuration add codes to the list of what is ignored and take them away. For each
code the last option counts that mentions it, and where no option does, the list that holds without
configuration. That list itself stays as it is. -/
namespace ScopeLint

namespace Settings

/-- The last option about what is ignored in general that mentions the code. -/
def lastMention? (code : String) (options : Config.Options) : Option (String × String) :=
  options.reverse.find? fun e => subject e.1 = ignoredKey ∧ code ∈ Text.split ',' e.2

variable {a : Settings} {ignored old : List Datum} {code name value : String}

theorem formOf_of_subject (h : subject name = ignoredKey) : formOf name = .list := by
  unfold formOf
  split
  · rfl
  · rw [h]
    rfl

theorem mem_revise {away : Bool} {codes : List String} :
    .text code ∈ revise away (Datum.distinct old) (codes.map Datum.text) ↔
      if code ∈ codes then away = false else .text code ∈ old := by
  have hmem : Datum.text code ∈ codes.map Datum.text ↔ code ∈ codes := by simp
  unfold revise
  by_cases hcode : code ∈ codes <;> cases away <;>
    simp [Datum.mem_distinct_text, ← Bool.not_eq_true, Datum.among_text, hmem, hcode]

variable (h : (a.withShared ignored).lookup ignoredKey = some (.list old))

include h

/-- What one option makes of the list: it has a say about the codes that it mentions. -/
theorem lookup_applyOption (e : String × String) :
    ∃ items, ((applyOption ignored a e.1 e.2).withShared ignored).lookup ignoredKey =
        some (.list items) ∧
      ∀ code, .text code ∈ items ↔ if subject e.1 = ignoredKey ∧ code ∈ Text.split ',' e.2 then
        isNegated e.1 = false else .text code ∈ old := by
  rw [applyOption_eq, lookup_withShared, lookup_set]
  by_cases hsubject : subject e.1 = ignoredKey
  · rw [if_pos hsubject.symm]
    refine ⟨_, by rw [optionValue, formOf_of_subject hsubject]; rfl, fun code => ?_⟩
    rw [hsubject, itemsSoFar, h]
    exact mem_revise.trans (by simp [Datum.items, Except.toOption])
  · rw [if_neg fun h => hsubject h.symm, ← lookup_withShared]
    exact ⟨old, h, by simp [hsubject]⟩

theorem lookup_applyOptions (options : Config.Options) :
    ∃ items, ((a.applyOptions ignored options).withShared ignored).lookup ignoredKey =
        some (.list items) ∧
      ∀ code, .text code ∈ items ↔
        (∃ e, lastMention? code options = some e ∧ isNegated e.1 = false) ∨
          (lastMention? code options = none ∧ .text code ∈ old) := by
  induction options generalizing a old with
  | nil => exact ⟨old, h, by simp [lastMention?]⟩
  | cons e rest ih =>
    obtain ⟨next, hnext, hword⟩ := lookup_applyOption h e
    obtain ⟨items, hitems, hlast⟩ := ih hnext
    refine ⟨items, hitems, fun code => ?_⟩
    have hcons : lastMention? code (e :: rest) = (lastMention? code rest).or
        (if subject e.1 = ignoredKey ∧ code ∈ Text.split ',' e.2 then some e else none) := by
      rw [lastMention?, List.reverse_cons, List.find?_append, lastMention?, List.find?_singleton]
      simp
    rw [hlast, hword, hcons]
    cases lastMention? code rest with
    | some later => simp
    | none =>
      by_cases hmention : subject e.1 = ignoredKey ∧ code ∈ Text.split ',' e.2 <;> simp [hmention]

end Settings

/-- A code is ignored according to the last option that mentions it, whichever file the option stands
in, or else as it is without configuration; and what holds without configuration stays the same. -/
theorem Work.settingsFor_lists_last_mention (host : Host) (path : String) (s : Session)
    (hkeeps : ConfigSource.Keeps host s.files s.optionsRead)
    (hnew : s.configured.find? path = none) (options : Config.Options)
    (hoptions : Settings.optionsFor host s.files path = .ok options) :
    ∃ settings t items, settingsFor host path s = .ok settings t ∧
      t.defaults = s.defaults ∧
      (settings.withShared t.ignored).lookup Settings.ignoredKey = some (.list items) ∧
      ∀ code, .text code ∈ items ↔
        (∃ e, Settings.lastMention? code options = some e ∧ Settings.isNegated e.1 = false) ∨
          (Settings.lastMention? code options = none ∧ .text code ∈ s.ignored) := by
  obtain ⟨kept, -, hread⟩ := settingsFor_of_find?_eq_none rfl hkeeps hnew
  rw [hoptions] at hread
  obtain ⟨items, hitems, hlast⟩ := Settings.lookup_applyOptions
    (Settings.lookup_withShared s.ignored Settings.unconfigured) options
  exact ⟨_, _, items, hread, rfl, hitems, hlast⟩

/-- Two files of which the second takes back what the first adds. -/
def Call.Example.twice : FileTree :=
  .directory [("p", .directory [
    (".frosted.cfg", .file ("[settings]\nignore_frosted_errors = E101,E303\n".toList.map
      (·.toNat.toUInt8))),
    ("setup.cfg", .file ("[frosted]\nnot_ignore_frosted_errors = E303\n".toList.map
      (·.toNat.toUInt8)))])]

open Call.Example in
theorem Work.settingsFor_lists_last_mention_twice :
    ∃ settings t items, settingsFor host "." (Session.initial twice) = .ok settings t ∧
      (settings.withShared t.ignored).lookup Settings.ignoredKey = some (.list items) ∧
      .text "W201" ∈ items ∧ .text "E101" ∈ items ∧ .text "E303" ∉ items := by
  have hoptions : Settings.optionsFor host twice "." =
      .ok [("ignore_frosted_errors", "E101,E303"), ("not_ignore_frosted_errors", "E303")] := rfl
  obtain ⟨settings, t, items, hread, -, hitems, hlast⟩ := settingsFor_lists_last_mention host "."
    (Session.initial twice) (Cache.all_empty _) rfl _ hoptions
  refine ⟨settings, t, items, hread, hitems, (hlast _).mpr (.inr ⟨by decide +kernel, .head _⟩),
    (hlast _).mpr (.inl ⟨_, rfl, by decide +kernel⟩), fun h => ?_⟩
  rcases (hlast _).mp h with ⟨e, he, hnegated⟩ | ⟨hnone, -⟩
  · cases he
    exact absurd hnegated (by decide +kernel)
  · cases hnone

end ScopeLint
