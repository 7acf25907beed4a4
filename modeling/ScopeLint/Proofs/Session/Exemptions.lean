import ScopeLint.Proofs.PathNames
import ScopeLint.Proofs.Session.Overrides
import ScopeLint.Proofs.Session.Telling

/-! # What is ignored in files of one name

An option of the configuration can say what is ignored in files with a certain base name. It is filed
under the name in lower case and without negations, and it is in force for the files that are really
called so, and for no others. -/
namespace ScopeLint

open List Settings

variable {name value key : String} {a : Settings} {host : Host}

namespace Text

/-- An underscore is no letter, and nothing is looked for behind it. -/
theorem meetsCased_append (before rest : List Char) :
    meetsCased (before ++ '_' :: rest) = meetsCased before := by
  have hunderscore : inRanges ignorableRanges '_' = false ∧ inRanges casedRanges '_' = false := by
    decide
  unfold meetsCased
  induction before with
  | nil => simp [hunderscore]
  | cons c before ih =>
    cases hc : inRanges ignorableRanges c with
    | true => simpa [dropWhile_cons, hc] using ih
    | false => simp [hc]

theorem lowerFrom_append (before rest cs : List Char) :
    lowerFrom (before ++ '_' :: rest) cs = lowerFrom before cs := by
  induction cs generalizing before with
  | nil => rfl
  | cons c cs ih =>
    rw [lowerFrom, lowerFrom, lowerChar, lowerChar, meetsCased_append]
    exact congrArg _ (ih (c :: before))

theorem lowerFrom_of_small {part : List Char} (h : ∀ c ∈ part, c.toNat < 128 ∧ c.toLower = c)
    (before rest : List Char) :
    lowerFrom before (part ++ rest) = part ++ lowerFrom (part.reverse ++ before) rest := by
  induction part generalizing before with
  | nil => rfl
  | cons c part ih =>
    obtain ⟨hsmall, hlower⟩ := h c (by simp)
    have hrest := ih (fun x hx => h x (by simp [hx])) (c :: before)
    rw [cons_append, lowerFrom, lowerChar, if_pos hsmall, hlower, hrest]
    simp

theorem eraseAllFrom_of_not_occursIn {part whole : List Char} (h : occursIn part whole = false) :
    eraseAllFrom part 0 whole = whole := by
  induction whole with
  | nil => rfl
  | cons c rest ih =>
    rw [occursIn, Bool.or_eq_false_iff] at h
    rw [eraseAllFrom, h.1, ih h.2]
    rfl

end Text

namespace Config

/-- A name that an option can have: it holds no delimiter, and does not end in a blank. -/
def IsName (name : String) : Prop :=
  (∀ c ∈ name.toList, isDelimiter c = false) ∧ Text.trimRight name.toList = name.toList

/-- The line gives a value to the option of that name. -/
def Assigns (line : List Char) (name value : String) : Prop :=
  ∃ blanks delimiter rest, line = name.toList ++ blanks ++ delimiter :: rest ∧
    (∀ c ∈ blanks, Text.isBlank c = true) ∧ isDelimiter delimiter = true ∧
      String.ofList (Text.trim rest) = value

theorem trimRight_append_blanks {cs blanks : List Char} (hcs : Text.trimRight cs = cs)
    (hblanks : ∀ c ∈ blanks, Text.isBlank c = true) : Text.trimRight (cs ++ blanks) = cs := by
  unfold Text.trimRight at hcs ⊢
  rw [reverse_append, dropWhile_append_of_pos (by simpa using hblanks), hcs]

theorem option?_of_assigns {line : List Char} (hname : IsName name) (h : Assigns line name value) :
    option? line = some (Text.lower name, value) := by
  obtain ⟨blanks, delimiter, rest, rfl, hblanks, hdelimiter, rfl⟩ := h
  have hblank (c : Char) (hc : c ∈ blanks) : isDelimiter c = false := by
    have hnone : Text.isBlank '=' = false ∧ Text.isBlank ':' = false := by decide
    rw [isDelimiter, Bool.or_eq_false_iff, beq_eq_false_iff_ne, beq_eq_false_iff_ne]
    constructor
    · rintro rfl
      exact absurd (hblanks _ hc) (by simp [hnone.1])
    · rintro rfl
      exact absurd (hblanks _ hc) (by simp [hnone.2])
  have hplain : ∀ c ∈ name.toList ++ blanks, (!isDelimiter c) = true := by
    intro c hc
    rw [Bool.not_eq_true']
    exact (mem_append.mp hc).elim (hname.1 c) (hblank c)
  have hdrop : (name.toList ++ blanks ++ delimiter :: rest).dropWhile (!isDelimiter ·) =
      delimiter :: rest := by
    rw [dropWhile_append_of_pos hplain]
    simp [hdelimiter]
  have htake : (name.toList ++ blanks ++ delimiter :: rest).takeWhile (!isDelimiter ·) =
      name.toList ++ blanks := by
    rw [takeWhile_append_of_pos hplain]
    simp [hdelimiter]
  unfold option?
  simp only [hdrop, htake, trimRight_append_blanks hname.2 hblanks, String.ofList_toList]

end Config

namespace Settings

/-- The base name that an option for files called `f` is filed under. -/
def filedAs (f : String) : String := Text.lower (Text.eraseAll negation (Text.lower f))

variable {f : String}

/-- A name in small letters without a negation in it is filed as it is. -/
theorem filedAs_eq_self (hlower : Text.lower f = f)
    (hnot : Text.occursIn negation.toList f.toList = false) : filedAs f = f := by
  rw [filedAs, hlower, Text.eraseAll, Text.eraseAllFrom_of_not_occursIn hnot, String.ofList_toList,
    hlower]

/-- What the names start with of settings that are about files of some name. -/
def filePart : List Char := (ignoredKey ++ "_for_").toList

theorem toList_ignoredForKey (f : String) : (ignoredForKey f).toList = filePart ++ f.toList := by
  rw [ignoredForKey, String.toList_append, filePart]

theorem ignoredForKey_inj {g : String} : ignoredForKey f = ignoredForKey g ↔ f = g := by
  rw [← String.toList_inj, toList_ignoredForKey, toList_ignoredForKey, append_cancel_left_eq,
    String.toList_inj]

theorem lower_ignoredForKey (f : String) :
    Text.lower (ignoredForKey f) = ignoredForKey (Text.lower f) := by
  have hall : (filePart.all fun c => decide (c.toNat < 128 ∧ c.toLower = c)) = true := by decide
  have hsmall (c : Char) (hc : c ∈ filePart) : c.toNat < 128 ∧ c.toLower = c :=
    of_decide_eq_true (all_eq_true.mp hall c hc)
  have hpart : filePart.reverse = '_' :: filePart.reverse.tail := by decide +kernel
  rw [← String.toList_inj, toList_ignoredForKey, Text.lower, Text.lower, String.toList_ofList,
    String.toList_ofList, toList_ignoredForKey, Text.lowerFrom_of_small hsmall, hpart]
  exact congrArg _ (Text.lowerFrom_append [] _ _)

theorem eraseAll_ignoredForKey (f : String) :
    Text.eraseAll negation (ignoredForKey f) = ignoredForKey (Text.eraseAll negation f) := by
  have hpart : filePart = ['i', 'g', 'n', 'o', 'r', 'e', '_', 'f', 'r', 'o', 's', 't', 'e', 'd',
      '_', 'e', 'r', 'r', 'o', 'r', 's', '_', 'f', 'o', 'r', '_'] := by decide +kernel
  have hnot : negation.toList = ['n', 'o', 't', '_'] := by decide
  rw [← String.toList_inj, toList_ignoredForKey, Text.eraseAll, Text.eraseAll, String.toList_ofList,
    String.toList_ofList, toList_ignoredForKey, hpart, hnot]
  simp [Text.eraseAllFrom]

/-- An option for files called `f` is about the setting for files of the name that it is filed
under. -/
theorem subject_lower_ignoredForKey (f : String) :
    subject (Text.lower (ignoredForKey f)) = ignoredForKey (filedAs f) := by
  rw [subject, lower_ignoredForKey, eraseAll_ignoredForKey, lower_ignoredForKey, filedAs]

theorem isName_ignoredForKey (h : Config.IsName f) : Config.IsName (ignoredForKey f) := by
  have hpart : (filePart.all fun c => !Config.isDelimiter c) = true ∧
      filePart.reverse.dropWhile Text.isBlank = filePart.reverse := by decide
  refine ⟨fun c hc => ?_, ?_⟩
  · rw [toList_ignoredForKey, mem_append] at hc
    refine hc.elim (fun hc => ?_) (h.1 c)
    simpa using all_eq_true.mp hpart.1 c hc
  · have hend := h.2
    rw [toList_ignoredForKey, Text.trimRight, reverse_append]
    unfold Text.trimRight at hend
    cases hlast : f.toList.reverse with
    | nil =>
      rw [nil_append, hpart.2, reverse_reverse, reverse_eq_nil_iff.mp hlast,
        append_nil]
    | cons c rest =>
      have hc : Text.isBlank c = false := by
        have hkept : (c :: rest).dropWhile Text.isBlank = c :: rest := by
          rw [← hlast, ← reverse_inj, hend, reverse_reverse]
        cases hblank : Text.isBlank c with
        | false => rfl
        | true =>
          rw [dropWhile_cons_of_pos hblank] at hkept
          have hlength := (dropWhile_sublist Text.isBlank (l := rest)).length_le
          rw [hkept, length_cons] at hlength
          omega
      rw [cons_append, dropWhile_cons_of_neg (by simp [hc]), ← cons_append, ← hlast]
      simp

/-- The name of an option that lists what is ignored in files of some name. -/
def isListing (name : String) : Bool := (ignoredKey ++ "_for").toList.isPrefixOf name.toList

theorem isListing_ignoredForKey (f : String) : isListing (ignoredForKey f) = true := by
  have hpart : filePart = (ignoredKey ++ "_for").toList ++ ['_'] := by decide
  rw [isListing, toList_ignoredForKey, hpart, append_assoc, isPrefixOf_iff_prefix]
  exact prefix_append _ _

theorem ignoredForKey_ne_of_not_listing (h : isListing name = false) (f : String) :
    name ≠ ignoredForKey f := by
  rintro rfl
  rw [isListing_ignoredForKey] at h
  cases h

theorem formOf_of_listing (h : isListing name = true) :
    formOf name = .list ∧ isNegated name = false := by
  refine ⟨if_pos h, ?_⟩
  obtain ⟨rest, hrest⟩ := isPrefixOf_iff_prefix.mp h
  have hpart : (ignoredKey ++ "_for").toList = 'i' :: (ignoredKey ++ "_for").toList.tail := by
    decide
  have hnot : negation.toList = ['n', 'o', 't', '_'] := by decide
  rw [isNegated, ← hrest, hpart, hnot]
  rfl

section Listed

variable {x : String} {ignored : List Datum} {items : List Datum}

/-- The setting is a list with the text in it. -/
def Lists (key x : String) (a : Settings) : Prop :=
  ∃ items, a.lookup key = some (.list items) ∧ Datum.text x ∈ items

theorem lists_applyOption (hlisting : isListing name = true) (hsubject : subject name = key)
    (hkey : key ≠ ignoredKey) (h : x ∈ Text.split ',' value ∨ Lists key x a) :
    Lists key x (applyOption ignored a name value) := by
  obtain ⟨hform, hpositive⟩ := formOf_of_listing hlisting
  have hvalue : optionValue ignored a name value = .list (Datum.distinct
      (Datum.distinct (itemsSoFar ignored a key) ++ (Text.split ',' value).map Datum.text)) := by
    unfold optionValue
    rw [hform, hpositive, hsubject]
    rfl
  rw [applyOption_eq, hsubject, hvalue]
  refine ⟨_, by rw [lookup_set, if_pos rfl], Datum.mem_distinct_text.mpr (mem_append.mpr ?_)⟩
  rcases h with hx | ⟨items, hitems, hx⟩
  · exact .inr (mem_map.mpr ⟨x, hx, rfl⟩)
  · left
    rw [itemsSoFar, lookup_withShared_of_ne hkey, hitems]
    exact Datum.mem_distinct_text.mpr hx

theorem lists_applyOptions {options : Config.Options} (hkey : key ≠ ignoredKey)
    (hall : ∀ e ∈ options, subject e.1 = key → isListing e.1 = true) (h : Lists key x a) :
    Lists key x (a.applyOptions ignored options) := by
  induction options generalizing a with
  | nil => exact h
  | cons e rest ih =>
    refine ih (fun o ho => hall o (by simp [ho])) ?_
    by_cases hsubject : subject e.1 = key
    · exact lists_applyOption (hall e (by simp) hsubject) hsubject hkey (.inr h)
    · obtain ⟨items, hitems, hx⟩ := h
      refine ⟨items, ?_, hx⟩
      dsimp only
      rw [applyOption_eq, lookup_set, if_neg fun he => hsubject he.symm, hitems]

theorem lists_of_option {before after : Config.Options} (hkey : subject name ≠ ignoredKey)
    (hlisting : isListing name = true)
    (hall : ∀ e ∈ after, subject e.1 = subject name → isListing e.1 = true)
    (hx : x ∈ Text.split ',' value) :
    Lists (subject name) x (a.applyOptions ignored (before ++ (name, value) :: after)) := by
  have hsplit : a.applyOptions ignored (before ++ (name, value) :: after) = applyOptions ignored
      (applyOption ignored (a.applyOptions ignored before) name value) after :=
    applyOptions_append _ _ _ _
  rw [hsplit]
  exact lists_applyOptions hkey hall (lists_applyOption hlisting rfl hkey (.inl hx))

/-- Where a list is given for a file, a list is in force there that holds it, or nothing is. -/
theorem ignoredIn_of_lookup_list {filename : String} {d : Datum}
    (hitems : a.lookup (ignoredForKey (Path.base filename)) = some (.list items)) (hne : items ≠ [])
    (h : a.ignoredIn filename = .ok d) : ∃ general, d = .list (general ++ items) := by
  have htrue : (Datum.list items).truthy = true := by
    simpa [Datum.truthy] using hne
  simp only [ignoredIn, hitems, htrue, if_true] at h
  generalize (a.lookup ignoredKey).getD (.list []) = general at h
  cases general with
  | list xs =>
    cases h
    exact ⟨xs, rfl⟩
  | _ => simp [extend, Datum.add, Datum.integer?, Datum.number?] at h

end Listed

end Settings

namespace Work

variable {path code : String} {b overrides : Settings}

/-- The settings that every check looks at. -/
def alwaysLookedAt : List String :=
  ["skip", "verbose", "run_doctests", "directly_being_checked", ignoredKey] ++
    Request.reservedNames

/-- The settings that a check of a file looks at. -/
def lookedAt (name : String) : List String :=
  ignoredForKey (Path.base name) :: alwaysLookedAt

variable (h : ∀ key ∈ lookedAt name, a.lookup key = b.lookup key)

include h

theorem setup_congr (tree : Node)
    (rows : List Nat) : (requestFor host tree (.text name) a rows).setup =
      (requestFor host tree (.text name) b rows).setup := by
  have hreserved : (a.any fun e => Request.reservedNames.contains e.1) =
      b.any fun e => Request.reservedNames.contains e.1 := by
    rw [any_contains, any_contains, Bool.eq_iff_iff, any_eq_true,
      any_eq_true]
    refine exists_congr fun reserved => and_congr_right fun hmem => ?_
    rw [h reserved (by simp [lookedAt, alwaysLookedAt, hmem])]
  have hignored : a.ignoredIn name = b.ignoredIn name := by
    unfold ignoredIn
    rw [h ignoredKey (by simp [lookedAt, alwaysLookedAt]),
      h (ignoredForKey (Path.base name)) (by simp [lookedAt, alwaysLookedAt])]
  unfold Request.setup requestFor
  dsimp only
  rw [hreserved, hignored, h "verbose" (by simp [lookedAt, alwaysLookedAt]),
    h "run_doctests" (by simp [lookedAt, alwaysLookedAt])]

/-- A check is the same under settings that say the same of what it looks at. -/
theorem checkUnder_congr : checkUnder host path code (.text name) a overrides =
      checkUnder host path code (.text name) b overrides := by
  have hskipped : reportSkipped a (.text name) = reportSkipped b (.text name) := by
    unfold reportSkipped
    rw [h "directly_being_checked" (by simp [lookedAt, alwaysLookedAt]),
      h "verbose" (by simp [lookedAt, alwaysLookedAt]),
      h ignoredKey (by simp [lookedAt, alwaysLookedAt])]
  have hfound (tree : Node) (rows : List Nat) :
      reportFound (requestFor host tree (.text name) a rows) =
        reportFound (requestFor host tree (.text name) b rows) := by
    unfold reportFound Request.run
    rw [setup_congr h]
    rfl
  have htree (tree : Node) : checkTree host path tree code (.text name) a overrides =
      checkTree host path tree code (.text name) b overrides := by
    unfold checkTree
    simp only [setup_congr h, hfound]
  unfold checkUnder
  simp only [hskipped, htree, h "skip" (by simp [lookedAt, alwaysLookedAt]),
    h "verbose" (by simp [lookedAt, alwaysLookedAt])]

end Work

namespace Call

variable {files : FileTree} {s : Session} {c : Call} {dir : String} {configured : Settings}

/-- The outcome of a call in a session that is still like a new one: a failure, or the outcome of the
check under the settings in force, which is the same in every session. -/
theorem outcome_perform (c : Call) (hs : s.Pristine host files) (u : Session) :
    Work.outcome (c.perform host) s = match c.inForce host files with
      | .error e => (.error e, [])
      | .ok (path, settings) =>
        Work.outcome (Work.checkUnder host path c.code c.filename settings c.overrides) u := by
  obtain ⟨t, -, hreports, hperform⟩ := c.perform_of_inForce hs
  cases hforce : c.inForce host files with
  | error e =>
    rw [hforce] at hperform
    have hfinish : c.perform host s = Work.finish (.error e) t := hperform
    exact Work.outcome_of_eq hfinish (by simp [hreports])
  | ok found =>
    obtain ⟨path, settings⟩ := found
    rw [hforce] at hperform
    dsimp only
    rw [Work.outcome_checkUnder]
    refine Work.outcome_of_eq (hperform.1.trans (Work.checkUnder_eq ..)) ?_
    rw [Session.tell, Work.keptSession_reports, hreports]

/-- An override of the call has a name that no override can have. -/
def isRefused (c : Call) : Bool :=
  c.overrides.any fun e => (["codeString", "filename"] ++ Work.reservedOverrides).contains e.1

theorem inForce_of_refused (h : c.isRefused = true) :
    c.inForce host files = .error (.fault .wrongType) := by
  unfold isRefused at h
  rw [inForce, h]
  rfl

theorem inForce_of_configured (h : c.isRefused = false)
    (hdir : Work.settingsPath host c.filename c.given = .ok dir)
    (hconfigured : configuredAt host files dir = .ok configured) : c.inForce host files =
      match (configured.withShared initiallyIgnored).override c.overrides with
      | .error e => .error (.fault e)
      | .ok settings => .ok (dir, settings) := by
  unfold isRefused at h
  simp only [inForce, h, hdir, hconfigured, mapError_ok, ok_bind]
  cases (configured.withShared initiallyIgnored).override c.overrides <;> rfl

/-- Where the configurations of two sessions differ in a setting only that a call does not look at,
its outcome is the same in both. -/
theorem outcome_of_agreeBut (c : Call) {other : FileTree} {more : Settings}
    (hname : c.filename = .text name) (hdir : Work.settingsPath host c.filename c.given = .ok dir)
    (hconfigured : configuredAt host files dir = .ok configured)
    (hmore : configuredAt host other dir = .ok more)
    (hagree : AgreeBut key configured more) (hspares : Spares key c.overrides)
    (hkey : ∀ seen ∈ Work.lookedAt name, seen ≠ key) :
    Work.outcome (c.perform host) (Session.initial files) =
      Work.outcome (c.perform host) (Session.initial other) := by
  have hforce := (hagree.withShared (Or.inr rfl : _ ∨ initiallyIgnored = _)).override hspares
  rw [c.outcome_perform (Session.pristine_initial host files) (Session.initial files),
    c.outcome_perform (Session.pristine_initial host other) (Session.initial files)]
  cases hrefused : c.isRefused with
  | true => rw [inForce_of_refused hrefused, inForce_of_refused hrefused]
  | false =>
    rw [inForce_of_configured hrefused hdir hconfigured, inForce_of_configured hrefused hdir hmore,
      hname]
    revert hforce
    cases (configured.withShared initiallyIgnored).override c.overrides with
    | error e =>
      cases (more.withShared initiallyIgnored).override c.overrides with
      | error e' =>
        rintro rfl
        rfl
      | ok b => exact False.elim
    | ok a =>
      cases (more.withShared initiallyIgnored).override c.overrides with
      | error e' => exact False.elim
      | ok b =>
        intro hforce
        dsimp only
        rw [Work.checkUnder_congr fun seen hseen => hforce seen (hkey seen hseen)]

/-- What a call tells where the configuration lists codes for its file, whatever has been checked
before. -/
theorem told_of_lists (c : Call) (hs : s.Faithful host files) {codes : List String}
    (hne : codes ≠ []) (hname : c.filename = .text name)
    (hdir : Work.settingsPath host c.filename c.given = .ok dir)
    (hconfigured : configuredAt host files dir = .ok configured)
    (hcodes : ∀ x ∈ codes, Lists (ignoredForKey (Path.base name)) x configured)
    (hspares : Spares (ignoredForKey (Path.base name)) c.overrides)
    {d : Diagnostic} (hd : .diagnostic d ∈ (Work.outcome (c.perform host) s).2) :
    d.kind ∈ Work.unfiltered ∨ d.kind.listedIn (codes.map Datum.text) = false := by
  rw [perform, Work.outcome_check hs] at hd
  obtain ⟨t, -, -, ⟨e, he⟩ | ⟨path, known, settings, inForce, hpath, hknown, hagree, hforce, he⟩⟩ :=
    Work.prepare_of_faithful hs c.filename c.given c.overrides
  · rw [he] at hd
    cases hd
  · cases hpath.symm.trans hdir
    cases hknown.symm.trans hconfigured
    have hlookup : inForce.lookup (ignoredForKey (Path.base name)) =
        configured.lookup (ignoredForKey (Path.base name)) := by
      rw [lookup_override_of_spares hforce hspares,
        lookup_withShared_of_ne (ignoredForKey_ne _),
        hagree _ (ignoredForKey_ne _)]
    obtain ⟨first, hfirst⟩ := exists_mem_of_ne_nil codes hne
    obtain ⟨items, hitems, hmem⟩ := hcodes first hfirst
    have hall : ∀ x ∈ codes.map Datum.text, x ∈ items := by
      intro x hx
      obtain ⟨code, hcode, rfl⟩ := mem_map.mp hx
      obtain ⟨same, hsame, hin⟩ := hcodes code hcode
      rw [hitems] at hsame
      cases hsame
      exact hin
    -- Whatever list is in force holds the items; where none is, nothing is told at all.
    obtain ⟨kinds, hkinds, hmore⟩ : ∃ kinds, (∀ d, inForce.ignoredIn name = .ok d →
        d = .list kinds) ∧ ∀ x ∈ items, x ∈ kinds := by
      cases hignored : inForce.ignoredIn name with
      | error e => exact ⟨items, by simp, fun _ hx => hx⟩
      | ok d =>
        obtain ⟨general, rfl⟩ := ignoredIn_of_lookup_list (hlookup.trans hitems)
          (ne_nil_of_mem hmem) hignored
        exact ⟨general ++ items, by simp, fun _ hx => mem_append_right _ hx⟩
    rw [he, hname] at hd
    refine (Work.not_listed_of_mem_account hkinds hd).imp id fun hkind => ?_
    rw [← Bool.not_eq_true] at hkind ⊢
    exact fun hlisted => hkind (Kind.listedIn_mono (fun x hx => hmore x (hall x hx)) hlisted)

/-- An option for the files called `f`. The codes in its list are left out in files of the name that
it is filed under, whatever has been checked before, unless another option puts something else in the
place of a list. A file of any other name is checked in a new session as if there were no such
option. It is filed under `f` itself if `f` is in small letters and holds no negation. -/
theorem exemption_reaches_filed_name (host : Host) (files : FileTree) (c : Call)
    {name dir f value : String} {line : List Char} {before after : Config.Options}
    (hname : c.filename = .text name) (hdir : Work.settingsPath host c.filename c.given = .ok dir)
    (hf : Config.IsName f) (hline : Config.Assigns line (ignoredForKey f) value)
    (hoptions : ∃ option, Config.option? line = some option ∧
      optionsFor host files dir = .ok (before ++ option :: after))
    (hspares : Spares (ignoredForKey (filedAs f)) c.overrides) :
    (Path.base name = filedAs f →
      (∀ e ∈ after, subject e.1 = ignoredForKey (filedAs f) →
        isListing e.1 = true) →
      ∀ (calls : List Call) (d : Diagnostic),
        .diagnostic d ∈ (Work.outcome (c.perform host)
          ((Session.initial files).after host calls)).2 →
        d.kind ∈ Work.unfiltered ∨
          d.kind.listedIn ((Text.split ',' value).map Datum.text) = false) ∧
    (Path.base name ≠ filedAs f → ∀ other,
      optionsFor host other dir = .ok (before ++ after) →
      Work.outcome (c.perform host) (Session.initial files) =
        Work.outcome (c.perform host) (Session.initial other)) ∧
    (Text.lower f = f → Text.occursIn negation.toList f.toList = false →
      filedAs f = f) := by
  have hread := Config.option?_of_assigns (isName_ignoredForKey hf) hline
  have hsubject := subject_lower_ignoredForKey f
  obtain ⟨option, hoption, hoptions⟩ := hoptions
  cases hread.symm.trans hoption
  have hconfigured := configuredAt_eq host files dir
  rw [hoptions] at hconfigured
  refine ⟨fun hbase hafter calls d hd => ?_, fun hbase other hother => ?_,
    filedAs_eq_self⟩
  · have hlisting : isListing (Text.lower (ignoredForKey f)) = true := by
      rw [lower_ignoredForKey]
      exact isListing_ignoredForKey _
    have hcodes (x : String) (hx : x ∈ Text.split ',' value) :
        Lists (ignoredForKey (Path.base name)) x
          (unconfigured.applyOptions initiallyIgnored
            (before ++ (Text.lower (ignoredForKey f), value) :: after)) := by
      rw [hbase, ← hsubject]
      refine lists_of_option ?_ hlisting ?_ hx
      · rw [hsubject]
        exact ignoredForKey_ne _
      · rw [hsubject]
        exact hafter
    rw [← hbase] at hspares
    exact c.told_of_lists (faithful_after calls (Session.faithful_initial host files))
      (Text.split_ne_nil ',' value) hname hdir hconfigured hcodes hspares hd
  · have hmore := configuredAt_eq host other dir
    rw [hother] at hmore
    have hagree := agreeBut_applyOptions_cons initiallyIgnored
      unconfigured before after (Text.lower (ignoredForKey f)) value
    rw [hsubject] at hagree
    refine c.outcome_of_agreeBut hname hdir hconfigured hmore hagree hspares fun seen hseen => ?_
    have hfixed : ∀ key ∈ Work.alwaysLookedAt, isListing key = false := by decide +kernel
    rcases mem_cons.mp hseen with rfl | hseen
    · rw [ne_eq, ignoredForKey_inj]
      exact hbase
    · exact ignoredForKey_ne_of_not_listing (hfixed seen hseen) _

/-- The option for `a.py` is in force there, and makes no difference for `b.py`. -/
theorem exemption_reaches_filed_name_small :
    filedAs "a.py" = "a.py" ∧
    (∀ (calls : List Call) (d : Diagnostic),
      .diagnostic d ∈ (Work.outcome ((Example.call "a.py").perform Example.host)
        ((Session.initial Example.files).after Example.host calls)).2 →
      d.kind ∈ Work.unfiltered ∨ d.kind.listedIn [.text "E101"] = false) ∧
    Work.outcome ((Example.call "b.py").perform Example.host) (Session.initial Example.files) =
      Work.outcome ((Example.call "b.py").perform Example.host) (Session.initial Example.bare) := by
  have hf : Config.IsName "a.py" := ⟨by simp [Config.isDelimiter], by decide +kernel⟩
  have hline : Config.Assigns "ignore_frosted_errors_for_a.py = E101".toList
      (ignoredForKey "a.py") "E101" := by
    have hblank : Text.isBlank ' ' = true := by decide
    exact ⟨[' '], '=', " E101".toList, by decide +kernel, by simp [hblank], by decide,
      by decide +kernel⟩
  have hspares : Spares (ignoredForKey (filedAs "a.py")) [] := by
    simp [Spares]
  have hfiled : filedAs "a.py" = "a.py" := by decide +kernel
  have hoptions : ∃ option,
      Config.option? "ignore_frosted_errors_for_a.py = E101".toList = some option ∧
        optionsFor Example.host Example.files "." = .ok ([] ++ option :: []) :=
    ⟨_, rfl, rfl⟩
  obtain ⟨htold, -, -⟩ := exemption_reaches_filed_name Example.host Example.files
    (Example.call "a.py") rfl rfl hf hline hoptions hspares
  obtain ⟨-, hsame, -⟩ := exemption_reaches_filed_name Example.host Example.files
    (Example.call "b.py") rfl rfl hf hline hoptions hspares
  refine ⟨hfiled, ?_, hsame (by decide +kernel) Example.bare rfl⟩
  exact htold (by decide +kernel) (by simp)

end Call

namespace Call.Example

/-- A directory with a configuration for `A.py`. -/
def capital : FileTree :=
  .directory [("p", .directory [(".frosted.cfg",
    .file ("[settings]\nignore_frosted_errors_for_A.py = E101\n".toList.map (·.toNat.toUInt8)))])]

end Call.Example

namespace Call

/-- The option for `A.py` is filed under `a.py`, and does not reach the file. -/
theorem exemption_misses_capital :
    filedAs "A.py" = "a.py" ∧
      (Work.outcome ((Example.call "A.py").perform Example.host)
        (Session.initial Example.capital)).1.toOption.map Prod.fst = some 1 := by
  decide +kernel

end Call

end ScopeLint
