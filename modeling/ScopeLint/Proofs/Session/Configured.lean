import ScopeLint.Proofs.Effects
import ScopeLint.Session.Check

/-! # Configuration that is read once and kept is the configuration that would be read afresh -/
namespace ScopeLint

open List Settings

variable {α : Type} {host : Host} {files : FileTree} {s : Session}

namespace Cache

variable {κ : Type}

/-- Everything that is kept stands in the relation `P` to its key. -/
def All (c : Cache κ α) (P : κ → α → Prop) : Prop := ∀ e ∈ c.entries, P e.1 e.2

theorem all_empty (P : κ → α → Prop) : (Cache.empty : Cache κ α).All P := by
  intro e he
  cases he

theorem All.insert {c : Cache κ α} {P : κ → α → Prop} (h : c.All P) {key : κ} {a : α}
    (ha : P key a) : (c.insert key a).All P := by
  intro e he
  rcases mem_cons.mp (mem_of_mem_take he) with rfl | he
  · exact ha
  · exact h e he

variable [BEq κ] [LawfulBEq κ] {c : Cache κ α} {P : κ → α → Prop} {key : κ}

theorem All.of_find? (h : c.All P) {a : α} (hf : c.find? key = some a) : P key a := by
  obtain ⟨before, after, hc, -⟩ := lookup_eq_some_iff.mp hf
  exact h (key, a) (by simp [hc])

theorem All.touch (h : c.All P) (key : κ) : (c.touch key).All P := by
  unfold Cache.touch
  split
  · rename_i a hf
    intro e he
    rcases mem_cons.mp he with rfl | he
    · exact h.of_find? hf
    · exact h e (mem_filter.mp he).1
  · exact h

theorem find?_touch (c : Cache κ α) (key : κ) : (c.touch key).find? key = c.find? key := by
  unfold Cache.touch
  split
  · rename_i a hf
    rw [hf]
    exact lookup_cons_self
  · rfl

theorem find?_insert (c : Cache κ α) (key : κ) (a : α) : (c.insert key a).find? key = some a := by
  simp [Cache.find?, Cache.insert, Cache.capacity]

theorem All.modify (h : c.All P) {f : α → α}
    (hf : ∀ a, P key a → P key (f a)) : (c.modify key f).All P := by
  intro e he
  obtain ⟨old, hold, rfl⟩ := mem_map.mp he
  have ho := h old hold
  split
  · rename_i hk
    obtain rfl := eq_of_beq hk
    exact hf old.2 ho
  · exact ho

theorem find?_modify (c : Cache κ α) (key : κ) (f : α → α) :
    (c.modify key f).find? key = (c.find? key).map f := by
  obtain ⟨entries⟩ := c
  simp only [Cache.find?, Cache.modify]
  induction entries with
  | nil => rfl
  | cons e rest ih =>
    obtain ⟨k, a⟩ := e
    by_cases hk : k = key
    · subst hk
      simp
    · have hne : (key == k) = false := by simpa using fun he => hk he.symm
      simp [lookup_cons, hk, hne, ih]

end Cache

namespace Work

variable {β : Type}

def finish (answer : Except Failure α) (t : Session) : EStateM.Result Failure Session α :=
  match answer with
  | .ok a => .ok a t
  | .error e => .error e t

end Work

def ConfigSource.optionsAt (source : ConfigSource) (host : Host) (files : FileTree)
    (path : String) : Except Failure Config.Options :=
  match files.read host.cwd path with
  | .error e => .error (.file path e)
  | .ok content =>
    match Config.readOptions path source.preamble content source.sections with
    | .error e => .error (.config e)
    | .ok options => .ok options

/-- The settings with the options of one source on top, read from the files at hand. -/
def ConfigSource.apply (host : Host) (files : FileTree) (path : String) (settings : Settings)
    (source : ConfigSource) : Except Failure Settings :=
  match source.find? host files path with
  | none => .ok settings
  | some file =>
    (source.optionsAt host files file).map (settings.applyOptions initiallyIgnored)

/-- The settings that the configuration in `files` gives for a directory. -/
def Settings.configuredAt (host : Host) (files : FileTree) (path : String) :
    Except Failure Settings :=
  ConfigSource.all.foldlM (ConfigSource.apply host files path) unconfigured

/-- The options of one source for a directory, if it has any there. -/
def ConfigSource.optionsFound (host : Host) (files : FileTree) (path : String)
    (source : ConfigSource) : Except Failure Config.Options :=
  match source.find? host files path with
  | none => .ok []
  | some file => source.optionsAt host files file

/-- All options that the configuration in `files` holds for a directory, in the order in which they
count. -/
def Settings.optionsFor (host : Host) (files : FileTree) (path : String) :
    Except Failure Config.Options :=
  (ConfigSource.all.mapM (ConfigSource.optionsFound host files path)).map List.flatten

theorem Settings.applyOptions_append (ignored : List Datum) (settings : Settings)
    (options more : Config.Options) : settings.applyOptions ignored (options ++ more) =
      (settings.applyOptions ignored options).applyOptions ignored more :=
  foldl_append

theorem ConfigSource.apply_eq (host : Host) (files : FileTree) (path : String)
    (settings : Settings) (source : ConfigSource) : source.apply host files path settings =
      (source.optionsFound host files path).map
        (settings.applyOptions initiallyIgnored) := by
  unfold apply optionsFound
  cases source.find? host files path <;> rfl

/-- The settings for a directory are the settings that hold without configuration with all options
on top. -/
theorem Settings.configuredAt_eq (host : Host) (files : FileTree) (path : String) :
    configuredAt host files path =
      (optionsFor host files path).map (unconfigured.applyOptions initiallyIgnored) := by
  have hfold (sources : List ConfigSource) (settings : Settings) :
      sources.foldlM (fun settings source => source.apply host files path settings) settings =
        (sources.mapM (ConfigSource.optionsFound host files path)).map
          fun found => settings.applyOptions initiallyIgnored found.flatten := by
    induction sources generalizing settings with
    | nil => rfl
    | cons source rest ih =>
      rw [foldlM_cons, mapM_cons, ConfigSource.apply_eq]
      cases ConfigSource.optionsFound host files path source with
      | error e => rfl
      | ok options =>
        change foldlM _ (settings.applyOptions initiallyIgnored options) rest = _
        rw [ih]
        cases rest.mapM (ConfigSource.optionsFound host files path) with
        | error e => rfl
        | ok found => exact congrArg Except.ok (applyOptions_append _ _ _ _).symm
  unfold configuredAt optionsFor
  rw [hfold]
  cases ConfigSource.all.mapM (ConfigSource.optionsFound host files path) <;> rfl

/-- The options that are kept are those that would be read afresh. -/
def ConfigSource.Keeps (host : Host) (files : FileTree)
    (kept : Cache (String × List String) Config.Options) : Prop :=
  kept.All fun key options => ∀ source ∈ ConfigSource.all,
    source.sections = key.2 → source.optionsAt host files key.1 = .ok options

namespace Session

/-- A session in which nothing that checks share differs from what a new session over the same
files has or would read: the general list of what is ignored, the settings that are kept, and
the options that are kept. -/
structure Pristine (host : Host) (files : FileTree) (s : Session) : Prop where
  files_eq : s.files = files
  ignored_eq : s.ignored = initiallyIgnored
  configured_all : s.configured.All fun path settings =>
    configuredAt host files path = .ok settings
  options_all : s.optionsRead.All fun key options => ∀ source ∈ ConfigSource.all,
    source.sections = key.2 → source.optionsAt host files key.1 = .ok options

/-- A session over the files in which the options that are kept are those that would be read afresh,
and the settings are related to those that would. -/
structure Kept (R : Settings → Settings → Prop) (host : Host) (files : FileTree) (s : Session) :
    Prop where
  files_eq : s.files = files
  configured_all : s.configured.All fun path settings => ∃ configured,
    configuredAt host files path = .ok configured ∧ R settings configured
  options_all : ConfigSource.Keeps host files s.optionsRead

theorem pristine_iff : s.Pristine host files ↔
    s.ignored = initiallyIgnored ∧ s.Kept Eq host files := by
  constructor
  · intro h
    exact ⟨h.ignored_eq, h.files_eq, by simpa using h.configured_all, h.options_all⟩
  · rintro ⟨hignored, h⟩
    exact ⟨h.files_eq, hignored, by simpa using h.configured_all, h.options_all⟩

theorem pristine_initial (host : Host) (files : FileTree) :
    (Session.initial files).Pristine host files :=
  ⟨rfl, rfl, Cache.all_empty _, Cache.all_empty _⟩

end Session

namespace Work

variable {source : ConfigSource}

/-- Different sources read different sections, so what is kept for a file and its sections is what
this source would read there. -/
private theorem source_eq_of_sections {a b : ConfigSource} (ha : a ∈ ConfigSource.all)
    (hb : b ∈ ConfigSource.all) (h : a.sections = b.sections) : a = b := by
  simp only [ConfigSource.all, mem_cons, not_mem_nil, or_false] at ha hb
  rcases ha with rfl | rfl | rfl <;> rcases hb with rfl | rfl | rfl <;>
    first | rfl | exact absurd h (by decide)

/-- The options in a file are those that are kept for it, or what is read from this file alone. -/
theorem optionsIn_apply (host : Host) (source : ConfigSource) (path : String) (s : Session) :
    ∃ kept, optionsIn host source path s =
        finish ((s.optionsRead.find? (path, source.sections)).elim
          (source.optionsAt host s.files path) .ok) { s with optionsRead := kept } ∧
      ∀ P, s.optionsRead.All P → (∀ options, source.optionsAt host s.files path = .ok options →
        P (path, source.sections) options) → kept.All P := by
  cases hf : s.optionsRead.find? (path, source.sections) with
  | some options =>
    refine ⟨s.optionsRead.touch (path, source.sections), ?_, fun P h _ => h.touch _⟩
    simp [optionsIn, hf, finish]
  | none =>
    cases ho : source.optionsAt host s.files path with
    | error e =>
      refine ⟨s.optionsRead, ?_, fun P h _ => h⟩
      unfold ConfigSource.optionsAt at ho
      simp only [optionsIn, bind_apply, get_apply, hf, finish, Option.elim]
      split at ho
      · simp_all
      · split at ho <;> simp_all
    | ok options =>
      refine ⟨s.optionsRead.insert (path, source.sections) options, ?_,
        fun P h hread => h.insert (hread options rfl)⟩
      unfold ConfigSource.optionsAt at ho
      simp only [optionsIn, bind_apply, get_apply, hf, finish, Option.elim]
      split at ho
      · cases ho
      · split at ho <;> simp_all

theorem optionsIn_eq (hfiles : s.files = files)
    (hkeeps : ConfigSource.Keeps host files s.optionsRead) (hs : source ∈ ConfigSource.all)
    (path : String) : ∃ kept, ConfigSource.Keeps host files kept ∧ optionsIn host source path s =
      finish (source.optionsAt host files path) { s with optionsRead := kept } := by
  subst hfiles
  obtain ⟨kept, heq, hkept⟩ := optionsIn_apply host source path s
  refine ⟨kept, hkept _ hkeeps fun options ho other hother hsections => ?_, ?_⟩
  · obtain rfl := source_eq_of_sections hother hs hsections
    exact ho
  · rw [heq]
    cases hf : s.optionsRead.find? (path, source.sections) with
    | none => rfl
    | some options => rw [hkeeps.of_find? hf source hs rfl, Option.elim]

private theorem configureFrom_eq (hfiles : s.files = files)
    (hkeeps : ConfigSource.Keeps host files s.optionsRead) (hs : source ∈ ConfigSource.all)
    (path : String) (settings : Settings) :
    ∃ kept, ConfigSource.Keeps host files kept ∧ configureFrom host path settings source s =
      finish ((source.optionsFound host files path).map (settings.applyOptions s.ignored))
        { s with optionsRead := kept } := by
  subst hfiles
  cases hf : source.find? host s.files path with
  | none =>
    refine ⟨s.optionsRead, hkeeps, ?_⟩
    simp [configureFrom, ConfigSource.optionsFound, hf, finish, Except.map, applyOptions]
  | some file =>
    obtain ⟨kept, hkept, he⟩ := optionsIn_eq rfl hkeeps hs file
    refine ⟨kept, hkept, ?_⟩
    simp only [configureFrom, ConfigSource.optionsFound, bind_apply, get_apply, hf, he]
    cases source.optionsAt host s.files file <;> simp [finish, Except.map]

theorem configureAll_eq (path : String) (sources : List ConfigSource)
    (hs : ∀ source ∈ sources, source ∈ ConfigSource.all) (settings : Settings)
    (hfiles : s.files = files) (hkeeps : ConfigSource.Keeps host files s.optionsRead) :
    ∃ kept, ConfigSource.Keeps host files kept ∧
      sources.foldlM (configureFrom host path) settings s =
        finish ((sources.mapM (ConfigSource.optionsFound host files path)).map
          fun found => settings.applyOptions s.ignored found.flatten)
          { s with optionsRead := kept } := by
  induction sources generalizing settings s with
  | nil => exact ⟨s.optionsRead, hkeeps, rfl⟩
  | cons source rest ih =>
    obtain ⟨kept, hkept, he⟩ := configureFrom_eq hfiles hkeeps (hs source (by simp)) path settings
    simp only [foldlM_cons, mapM_cons, bind_apply, he]
    cases ConfigSource.optionsFound host files path source with
    | error e => exact ⟨kept, hkept, rfl⟩
    | ok options =>
      obtain ⟨later, hlater, hfold⟩ := ih (fun x hx => hs x (by simp [hx]))
        (settings.applyOptions s.ignored options) (s := { s with optionsRead := kept }) hfiles hkept
      refine ⟨later, hlater, hfold.trans ?_⟩
      cases rest.mapM (ConfigSource.optionsFound host files path) with
      | error e => rfl
      | ok found => exact congrArg (EStateM.Result.ok · _) (applyOptions_append _ _ _ _).symm

/-- Settings that are not kept yet are read, and then they are kept. -/
theorem settingsFor_of_find?_eq_none (hfiles : s.files = files)
    (hkeeps : ConfigSource.Keeps host files s.optionsRead) {path : String}
    (hf : s.configured.find? path = none) :
    ∃ kept, ConfigSource.Keeps host files kept ∧ settingsFor host path s =
      match (optionsFor host files path).map
        (unconfigured.applyOptions s.ignored) with
      | .error e => .error e { s with optionsRead := kept }
      | .ok settings => .ok settings
          { s with configured := s.configured.insert path settings, optionsRead := kept } := by
  obtain ⟨kept, hkept, he⟩ := configureAll_eq path ConfigSource.all (fun _ hx => hx)
    unconfigured hfiles hkeeps
  refine ⟨kept, hkept, ?_⟩
  simp only [settingsFor, bind_apply, get_apply, hf, he, optionsFor]
  cases ConfigSource.all.mapM (ConfigSource.optionsFound host files path) <;> rfl

/-- Asking for the settings of a directory gives what the files say, as far as that is kept, and then
they are kept. -/
theorem settingsFor_of_kept {R : Settings → Settings → Prop} (h : s.Kept R host files)
    (hR : ∀ options, R (unconfigured.applyOptions s.ignored options)
      (unconfigured.applyOptions initiallyIgnored options)) (path : String) :
    ∃ t, t.Kept R host files ∧ t.ignored = s.ignored ∧ t.reports = s.reports ∧
      match configuredAt host files path with
      | .error e => settingsFor host path s = .error e t
      | .ok configured => ∃ settings, settingsFor host path s = .ok settings t ∧
          R settings configured ∧ t.configured.find? path = some settings := by
  cases hf : s.configured.find? path with
  | some settings =>
    obtain ⟨configured, hconfigured, hsettings⟩ := h.configured_all.of_find? hf
    refine ⟨{ s with configured := s.configured.touch path },
      ⟨h.files_eq, h.configured_all.touch _, h.options_all⟩, rfl, rfl, ?_⟩
    rw [hconfigured]
    exact ⟨settings, by simp [settingsFor, hf], hsettings, by rw [Cache.find?_touch, hf]⟩
  | none =>
    obtain ⟨kept, hkept, he⟩ := settingsFor_of_find?_eq_none h.files_eq h.options_all hf
    have hread := configuredAt_eq host files path
    cases hoptions : optionsFor host files path with
    | error e =>
      rw [hoptions] at he hread
      rw [hread]
      exact ⟨{ s with optionsRead := kept }, ⟨h.files_eq, h.configured_all, hkept⟩, rfl, rfl, he⟩
    | ok options =>
      rw [hoptions] at he hread
      refine ⟨{ s with
          configured := s.configured.insert path
            (unconfigured.applyOptions s.ignored options)
          optionsRead := kept },
        ⟨h.files_eq, h.configured_all.insert ⟨_, hread, hR options⟩, hkept⟩, rfl, rfl, ?_⟩
      rw [hread]
      exact ⟨_, he, hR options, Cache.find?_insert ..⟩

end Work

end ScopeLint
