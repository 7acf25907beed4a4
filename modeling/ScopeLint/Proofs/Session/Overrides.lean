import Mathlib.Data.Rat.Lemmas
import ScopeLint.Proofs.Session.Independence

/-! # Overrides of settings that are lists

An override of a list is worked into the list, and one with a negation takes its items away. After that
each override is put in place under its own name, so that an override of a list replaces the list
that it has been worked into. -/
namespace ScopeLint

open List

namespace Double

def amount (x : Double) : ℚ := x.signed / x.denominator

theorem equals_iff (x y : Double) : x.equals y = true ↔ x.amount = y.amount := by
  have hpos (z : Double) : (z.denominator : ℚ) ≠ 0 := by
    simp [denominator]
  rw [amount, amount, div_eq_div_iff (hpos x) (hpos y), equals, beq_iff_eq]
  exact_mod_cast Iff.rfl

theorem amount_ofInt (n : Int) : (ofInt n).amount = n := by
  have hsigned : (ofInt n).signed = n := by
    have hnumerator : (ofInt n).numerator = n.natAbs := by simp [numerator, ofInt]
    have hnegative : (ofInt n).negative = decide (n < 0) := rfl
    rw [signed, hnumerator, hnegative]
    by_cases hn : n < 0
    · rw [if_pos (decide_eq_true hn)]
      omega
    · rw [if_neg (by simpa using hn)]
      omega
  have hdenominator : (ofInt n).denominator = 1 := by simp [denominator, ofInt]
  simp [amount, hsigned, hdenominator]

end Double

/-- What a value that can be in a set is told apart by. -/
inductive Datum.Token where
  | null
  /-- Numbers of all types are told apart by what they amount to. -/
  | number (amount : ℚ)
  | text (s : String)
  | thing (identity : Nat)

namespace Datum

/-- What the value is told apart by, unless it is equal to nothing or can change. -/
def token? : Datum → Option Token
  | .null => some .null
  | .bool b => some (.number (if b then 1 else 0))
  | .int n => some (.number n)
  | .real x => some (.number x.amount)
  | .text s => some (.text s)
  | .object _ (some i) _ => some (.thing i)
  | .object _ none _ | .list _ | .dict _ => none

/-- Whether the value can be in a set. -/
def IsKeyed (d : Datum) : Prop := ∃ k, d.key = .ok k

/-- A value that can be in a set is equal to those that are told apart by the same. -/
theorem same_iff {a : Datum} (ha : a.IsKeyed) (b : Datum) :
    same a b = true ↔ ∃ t, b.token? = some t ∧ a.token? = some t := by
  obtain ⟨k, hk⟩ := ha
  cases a with
  | list | dict => cases hk
  | object kind identity attributes =>
    cases identity with
    | none => simp [same, token?, number?, integer?]
    | some i =>
      cases b with
      | object kind' identity' => cases identity' <;> simp [same, token?, number?, integer?]
      | _ => simp [same, token?, number?, integer?]
  | _ =>
    cases b with
    | object kind identity => cases identity <;> simp [same, token?, number?, integer?]
    | _ => simp [same, token?, number?, integer?, Double.equals_iff, Double.amount_ofInt]

/-- What the items of a list are told apart by. -/
def tokens (items : List Datum) : List Token := items.filterMap token?

variable {items : List Datum} {t : Token}

theorem mem_tokens : t ∈ tokens items ↔ ∃ y ∈ items, y.token? = some t :=
  mem_filterMap

theorem tokens_append (items more : List Datum) :
    tokens (items ++ more) = tokens items ++ tokens more :=
  filterMap_append

theorem among_iff (h : ∀ y ∈ items, y.IsKeyed) (x : Datum) :
    among items x = true ↔ ∃ t, x.token? = some t ∧ t ∈ tokens items := by
  simp only [among, any_eq_true, mem_tokens]
  constructor
  · rintro ⟨y, hy, hsame⟩
    obtain ⟨t, hx, ht⟩ := (same_iff (h y hy) x).mp hsame
    exact ⟨t, hx, y, hy, ht⟩
  · rintro ⟨t, hx, y, hy, ht⟩
    exact ⟨y, hy, (same_iff (h y hy) x).mpr ⟨t, hx, ht⟩⟩

theorem among_iff_of_token (h : ∀ y ∈ items, y.IsKeyed) {x : Datum} (hx : x.token? = some t) :
    among items x = true ↔ t ∈ tokens items := by
  simp [among_iff h, hx]

/-- From the items of `known` on, each item is added that is not among those before it. -/
private theorem distinct_step (items known : List Datum) (hitems : ∀ y ∈ items, y.IsKeyed)
    (hknown : ∀ y ∈ known, y.IsKeyed) :
    let all := items.foldl (fun known x => if among known x then known else known ++ [x]) known
    (∀ y ∈ all, y.IsKeyed) ∧ ∀ t, t ∈ tokens all ↔ t ∈ tokens known ∨ t ∈ tokens items := by
  induction items generalizing known with
  | nil => exact ⟨hknown, fun t => by simp [tokens]⟩
  | cons x rest ih =>
    obtain ⟨hx, hrest⟩ := forall_mem_cons.mp hitems
    have hsplit : tokens (x :: rest) = tokens [x] ++ tokens rest := tokens_append [x] rest
    by_cases hamong : among known x = true
    · obtain ⟨u, hu, hmem⟩ := (among_iff hknown x).mp hamong
      have hone : tokens [x] = [u] := by simp [tokens, hu]
      obtain ⟨hkeyed, hiff⟩ := ih known hrest hknown
      rw [foldl_cons, if_pos hamong]
      refine ⟨hkeyed, fun t => ?_⟩
      rw [hiff, hsplit, hone, singleton_append, mem_cons]
      constructor
      · rintro (h | h)
        · exact .inl h
        · exact .inr (.inr h)
      · rintro (h | rfl | h)
        · exact .inl h
        · exact .inl hmem
        · exact .inr h
    · have hmore : ∀ y ∈ known ++ [x], y.IsKeyed := by
        simpa [or_imp, forall_and] using ⟨hknown, hx⟩
      obtain ⟨hkeyed, hiff⟩ := ih (known ++ [x]) hrest hmore
      rw [foldl_cons, if_neg hamong]
      refine ⟨hkeyed, fun t => ?_⟩
      rw [hiff, hsplit, tokens_append, mem_append, mem_append, or_assoc]

/-- What is made a set could be in one, and the set holds what the list does. -/
theorem setOf_eq_ok {set : List Datum} (h : setOf items = .ok set) :
    (∀ y ∈ items, y.IsKeyed) ∧ (∀ y ∈ set, y.IsKeyed) ∧
      ∀ t, t ∈ tokens set ↔ t ∈ tokens items := by
  obtain ⟨keys, hkeys, h⟩ := bind_eq_ok.mp h
  cases h
  have hkeyed : ∀ y ∈ items, y.IsKeyed := by
    replace hkeys := mapM_eq_ok.mp hkeys
    clear * - hkeys
    induction hkeys with
    | nil => simp
    | cons hk _ ih => exact forall_mem_cons.mpr ⟨⟨_, hk⟩, ih⟩
  obtain ⟨hset, hiff⟩ := distinct_step items [] hkeyed (by simp)
  refine ⟨hkeyed, hset, fun t => (hiff t).trans ?_⟩
  simp [tokens]

/-- The items of a value; none if a loop cannot run over it. -/
def members (d : Datum) : List Datum := (d.items.toOption).getD []

end Datum

namespace Settings

open Datum

variable {old new : List Datum} {settings revised overrides inForce : Settings} {key : String}

/-- What is in a set that is revised: what the revision adds or leaves alone. -/
private theorem mem_tokens_revise (away : Bool) (hold : ∀ y ∈ old, y.IsKeyed)
    (hnew : ∀ y ∈ new, y.IsKeyed) :
    (∀ y ∈ revise away old new, y.IsKeyed) ∧ ∀ t, t ∈ tokens (revise away old new) ↔
      (t ∈ tokens new ∧ away = false) ∨ (t ∈ tokens old ∧ t ∉ tokens new) := by
  cases away with
  | false =>
    obtain ⟨hkeyed, hiff⟩ := distinct_step (old ++ new) [] (forall_mem_append.mpr ⟨hold, hnew⟩)
      (by simp)
    refine ⟨hkeyed, fun t => (hiff t).trans ?_⟩
    rw [tokens_append, mem_append]
    simp only [tokens, filterMap_nil, not_mem_nil, false_or, and_true]
    tauto
  | true =>
    refine ⟨fun y hy => hold y (mem_filter.mp hy).1, fun t => ?_⟩
    have haway (y : Datum) (hy : y.token? = some t) : (!among new y) = true ↔ t ∉ tokens new := by
      rw [← among_iff_of_token hnew hy, Bool.not_eq_true', Bool.not_eq_true]
    rw [revise, if_pos rfl, mem_tokens]
    simp only [mem_filter, Bool.true_eq_false, and_false, false_or]
    constructor
    · rintro ⟨y, ⟨hy, hfree⟩, ht⟩
      exact ⟨mem_tokens.mpr ⟨y, hy, ht⟩, (haway y ht).mp hfree⟩
    · rintro ⟨hmem, hfree⟩
      obtain ⟨y, hy, ht⟩ := mem_tokens.mp hmem
      exact ⟨y, ⟨hy, (haway y ht).mpr hfree⟩, ht⟩

/-- A set that is revised holds an item if the revision adds it, or leaves it alone where it was. -/
theorem among_revise {away : Bool} {before change : List Datum} (hold : setOf before = .ok old)
    (hnew : setOf change = .ok new) (x : Datum) :
    among (revise away old new) x = if among change x then !away else among before x := by
  obtain ⟨hbefore, hkold, hold⟩ := setOf_eq_ok hold
  obtain ⟨hchange, hknew, hnew⟩ := setOf_eq_ok hnew
  obtain ⟨hrevised, hiff⟩ := mem_tokens_revise away hkold hknew
  cases hx : x.token? with
  | none =>
    have hnone {items : List Datum} (h : ∀ y ∈ items, y.IsKeyed) : among items x = false := by
      rw [← Bool.not_eq_true, among_iff h, hx]
      simp
    rw [hnone hrevised, hnone hchange, hnone hbefore]
    rfl
  | some t =>
    rw [Bool.eq_iff_iff, among_iff_of_token hrevised hx, hiff, hold, hnew]
    by_cases ht : t ∈ tokens change
    · rw [if_pos ((among_iff_of_token hchange hx).mpr ht)]
      simp [ht]
    · rw [if_neg (mt (among_iff_of_token hchange hx).mp ht), among_iff_of_token hbefore hx]
      simp [ht]

/-- What an override says about an item of the setting `key`: whether it adds it or takes it away, if it
says anything. -/
def wordOn (key : String) (x : Datum) (e : String × Datum) : Option Bool :=
  if subject e.1 = key ∧ among e.2.members x then some (!isNegated e.1) else none

/-- What the last override says about an item that says anything about it. -/
def lastWord (key : String) (x : Datum) (overrides : Settings) : Option Bool :=
  overrides.reverse.findSome? (wordOn key x)

theorem lastWord_cons (key : String) (x : Datum) (e : String × Datum) (rest : Settings) :
    lastWord key x (e :: rest) = (lastWord key x rest).or (wordOn key x e) := by
  simp [lastWord, findSome?_append]

/-- One override is worked into a list that it is about, and leaves other lists alone. -/
theorem lookup_applyOverride_list {name : String} {value : Datum}
    (h : settings.applyOverride name value = .ok revised)
    (hold : settings.lookup key = some (.list old)) (hname : name ≠ key) :
    ∃ items, revised.lookup key = some (.list items) ∧
      ∀ x, among items x = (wordOn key x (name, value)).getD (among old x) := by
  by_cases hsubject : subject name = key
  · simp only [applyOverride, hsubject, hold] at h
    obtain ⟨before, hbefore, h⟩ := bind_eq_ok.mp h
    obtain ⟨change, hchange, h⟩ := bind_eq_ok.mp h
    obtain ⟨new, hnew, h⟩ := bind_eq_ok.mp h
    cases h
    refine ⟨_, by rw [lookup_set, if_pos rfl], fun x => ?_⟩
    have hmembers : value.members = change := by simp [members, hchange, Except.toOption]
    rw [among_revise hbefore hnew, wordOn, hmembers]
    by_cases hx : among change x = true <;> simp [hsubject, hx]
  · have hsame := lookup_applyOverride h hname hsubject
    refine ⟨old, hsame.trans hold, fun x => ?_⟩
    simp [wordOn, hsubject]

theorem lookup_foldlM_list
    (h : overrides.foldlM (fun known e => known.applyOverride e.1 e.2) settings = .ok revised)
    (hold : settings.lookup key = some (.list old)) (hnames : ∀ e ∈ overrides, e.1 ≠ key) :
    ∃ items, revised.lookup key = some (.list items) ∧
      ∀ x, among items x = (lastWord key x overrides).getD (among old x) := by
  induction overrides generalizing settings old with
  | nil =>
    cases h
    exact ⟨old, hold, fun x => by simp [lastWord]⟩
  | cons e rest ih =>
    rw [foldlM_cons] at h
    obtain ⟨next, he, h⟩ := bind_eq_ok.mp h
    obtain ⟨hfirst, hrest⟩ := forall_mem_cons.mp hnames
    obtain ⟨items, hitems, hword⟩ := lookup_applyOverride_list he hold hfirst
    obtain ⟨final, hfinal, hlast⟩ := ih h hitems hrest
    refine ⟨final, hfinal, fun x => ?_⟩
    rw [hlast, hword, lastWord_cons]
    cases lastWord key x rest with
    | none => rw [Option.none_or, Option.getD_none]
    | some b => rw [Option.some_or, Option.getD_some, Option.getD_some]

/-- The items that an override of `key` gives; none if there is no such override. -/
def given (key : String) (overrides : Settings) : List Datum :=
  ((overrides.lookup key).map members).getD []

/-- A list that is not overridden by its name is in force as the overrides about it leave it. -/
theorem lookup_override_list (h : settings.override overrides = .ok inForce)
    (hold : settings.lookup key = some (.list old)) (hnone : overrides.lookup key = none) :
    ∃ items, inForce.lookup key = some (.list items) ∧
      ∀ x, among items x = (lastWord key x overrides).getD (among old x) := by
  have hnames : ∀ e ∈ overrides, e.1 ≠ key := by
    intro e he hkey
    simpa [hkey] using lookup_eq_none_iff.mp hnone e he
  obtain ⟨revised, hr, h⟩ := bind_eq_ok.mp h
  cases h
  obtain ⟨items, hitems, hword⟩ := lookup_foldlM_list hr hold hnames
  exact ⟨items, by rw [lookup_update_of_not_mem _ _ _ hnames, hitems], hword⟩

theorem subject_negation (key : String) : subject (negation ++ key) = subject key := by
  have herase : Text.eraseAll negation (negation ++ key) = Text.eraseAll negation key := by
    simp [Text.eraseAll, negation, Text.eraseAllFrom]
  rw [subject, herase, subject]

theorem isNegated_negation (key : String) : isNegated (negation ++ key) = true := by
  simp [isNegated, negation]

/-- Where the negated override is the only one about a list, it says the last word on its items. -/
theorem lastWord_of_negation (hkey : subject key = key) (hd : (overrides.map Prod.fst).Nodup)
    (honly : ∀ e ∈ overrides, subject e.1 = key → e.1 = negation ++ key) (x : Datum) :
    lastWord key x overrides =
      if among (given (negation ++ key) overrides) x then some false else none := by
  induction overrides with
  | nil => simp [lastWord, given, among]
  | cons e rest ih =>
    obtain ⟨hfirst, hrest⟩ := forall_mem_cons.mp honly
    obtain ⟨name, value⟩ := e
    obtain ⟨hfresh, hdistinct⟩ := nodup_cons.mp hd
    rw [lastWord_cons, ih hdistinct hrest]
    by_cases hname : name = negation ++ key
    · have hnone : rest.lookup (negation ++ key) = none := by
        rw [lookup_eq_none_iff]
        intro e he
        rw [bne_iff_ne, ← hname]
        exact fun heq => hfresh (mem_map.mpr ⟨e, he, heq.symm⟩)
      have hrest : given (negation ++ key) rest = [] := by simp [given, hnone]
      have hgiven : given (negation ++ key) ((name, value) :: rest) = value.members := by
        simp [given, hname]
      have hsubject : subject name = key := by rw [hname, subject_negation, hkey]
      have hnegated : isNegated name = true := by rw [hname, isNegated_negation]
      rw [hrest, hgiven, wordOn]
      simp [among, hsubject, hnegated]
    · have hother : subject name ≠ key := fun h => hname (hfirst h)
      have hgiven : given (negation ++ key) ((name, value) :: rest) =
          given (negation ++ key) rest := by
        have hne : (negation ++ key == name) = false := beq_eq_false_iff_ne.mpr (Ne.symm hname)
        simp [given, lookup_cons, hne]
      have hword : wordOn key x (name, value) = none := if_neg fun h => hother h.1
      rw [hgiven, hword, Option.or_none]

/-- As a set, the value in force for a list is the configured list with what the override of its name
adds and without what the negated override takes away. -/
def Extends (key : String) (old : List Datum) (overrides inForce : Settings) : Prop :=
  ∃ d, inForce.lookup key = some d ∧ ∀ x, among d.members x = true ↔
    (among old x = true ∨ among (given key overrides) x = true) ∧
      ¬ among (given (negation ++ key) overrides) x = true

/-- If nothing else is about a list, it is extended by its override and diminished by the negated one
exactly if it is not overridden by its name, or nothing in it would be left over. -/
theorem extends_iff (h : settings.override overrides = .ok inForce)
    (hd : (overrides.map Prod.fst).Nodup) (hold : settings.lookup key = some (.list old))
    (hkey : subject key = key)
    (honly : ∀ e ∈ overrides, subject e.1 = key → e.1 = key ∨ e.1 = negation ++ key)
    (hdisjoint : ∀ x, ¬ (among (given key overrides) x = true ∧
      among (given (negation ++ key) overrides) x = true)) :
    Extends key old overrides inForce ↔ (overrides.lookup key).isSome → ∀ x, among old x = true →
      among (given key overrides) x = true ∨ among (given (negation ++ key) overrides) x = true := by
  cases hlookup : overrides.lookup key with
  | some value =>
    have hforce := lookup_override_of_lookup h hd hlookup
    have hgiven : given key overrides = value.members := by simp [given, hlookup]
    rw [Extends, hforce, hgiven]
    rw [hgiven] at hdisjoint
    simp only [Option.some.injEq, exists_eq_left', Option.isSome_some, forall_const]
    refine forall_congr' fun x => ?_
    have hx := hdisjoint x
    tauto
  | none =>
    obtain ⟨items, hitems, hword⟩ := lookup_override_list h hold hlookup
    have hnames : ∀ e ∈ overrides, subject e.1 = key → e.1 = negation ++ key := by
      intro e he hsubject
      refine (honly e he hsubject).resolve_left fun heq => ?_
      simpa [heq] using lookup_eq_none_iff.mp hlookup e he
    simp only [Option.isSome_none, Bool.false_eq_true, false_implies, iff_true]
    refine ⟨_, hitems, fun x => ?_⟩
    have hmembers : (Datum.list items).members = items := rfl
    have hgiven : among (given key overrides) x = false := by simp [given, hlookup, among]
    rw [hmembers, hword, lastWord_of_negation hkey hd hnames, hgiven]
    by_cases hx : among (given (negation ++ key) overrides) x = true <;> simp [hx]

end Settings

namespace Call

open Datum Settings

variable {host : Host}

/-- What is in force in a check for a setting that is configured as a list. An override of its name is
in force as it is. Otherwise an item is in force if the last override about the setting that speaks of
it adds it, or if it is configured and no override speaks of it. So the list is extended by its
override and diminished by the negated one exactly if it is not overridden by its name, or nothing
in it would be left over. -/
theorem list_in_force (c : Call) (s : Session) {t : Session} {path : String}
    {configured inForce : Settings}
    (hallowed : (c.overrides.any fun e =>
      (["codeString", "filename"] ++ Work.reservedOverrides).contains e.1) = false)
    (hpath : Work.settingsPath host c.filename c.given = .ok path)
    (hconfigured : Work.settingsFor host path s = .ok configured t)
    (hforce : (configured.withShared t.ignored).override c.overrides = .ok inForce)
    {key : String} {old : List Datum}
    (hold : (configured.withShared t.ignored).lookup key = some (.list old)) :
    c.perform host s = Work.checkUnder host path c.code c.filename inForce c.overrides t ∧
    (∀ value, c.overrides.lookup key = some value → inForce.lookup key = some value) ∧
    (c.overrides.lookup key = none → ∃ items, inForce.lookup key = some (.list items) ∧
      ∀ x, among items x = (lastWord key x c.overrides).getD (among old x)) ∧
    (subject key = key →
      (∀ e ∈ c.overrides, subject e.1 = key → e.1 = key ∨ e.1 = negation ++ key) →
      (∀ x, ¬ (among (Settings.given key c.overrides) x = true ∧
        among (Settings.given (negation ++ key) c.overrides) x = true)) →
      (Extends key old c.overrides inForce ↔ (c.overrides.lookup key).isSome → ∀ x,
        among old x = true → among (Settings.given key c.overrides) x = true ∨
          among (Settings.given (negation ++ key) c.overrides) x = true)) := by
  refine ⟨?_, fun value hvalue => lookup_override_of_lookup hforce c.distinct hvalue,
    lookup_override_list hforce hold, extends_iff hforce c.distinct hold⟩
  have hchecked : Work.checkOverrides ["codeString", "filename"] c.overrides s = .ok () s := by
    rw [Work.checkOverrides, hallowed]
    rfl
  simp [perform, Work.check, hchecked, hpath, hforce, hconfigured, Work.lift]

end Call

namespace Call.Example

def bare : FileTree := .directory [("p", .directory [])]

def adding : Call :=
  ⟨"import os\n", .text "a.py", .text ".", [(Settings.ignoredKey, .list [.text "E303"])], by simp⟩

def sparing : Call where
  code := "import os\n"
  filename := .text "a.py"
  given := .text "."
  overrides := [(Settings.negation ++ Settings.ignoredKey, .list [.text "W201"])]
  distinct := by simp

def settings (c : Call) : Except Fault Settings :=
  (Settings.unconfigured.withShared Settings.initiallyIgnored).override c.overrides

end Call.Example

namespace Call

open Datum Settings

/-- A code that is ignored from the start is not in force where a caller takes it away. -/
theorem list_in_force_spared : ∃ inForce t,
    Example.settings Example.sparing = .ok inForce ∧
    Example.sparing.perform Example.host (Session.initial Example.bare) =
      Work.checkUnder Example.host "." "import os\n" (.text "a.py") inForce
        Example.sparing.overrides t ∧
    Extends ignoredKey initiallyIgnored Example.sparing.overrides inForce := by
  obtain ⟨hperform, -, -, hextends⟩ := @list_in_force Example.host Example.sparing
    (Session.initial Example.bare) _ _ _ _ rfl rfl rfl rfl ignoredKey _ rfl
  have hnone : Example.sparing.overrides.lookup ignoredKey = none := rfl
  have honly : ∀ e ∈ Example.sparing.overrides, subject e.1 = ignoredKey →
      e.1 = ignoredKey ∨ e.1 = negation ++ ignoredKey := by simp [Example.sparing]
  refine ⟨_, _, rfl, hperform, (hextends subject_ignoredKey honly fun x h => ?_).mpr ?_⟩
  · simp [Settings.given, hnone, among] at h
  · simp [hnone]

/-- An override of what is ignored does away with what is ignored from the start. -/
theorem override_replaces_list : ∃ inForce,
    Example.settings Example.adding = .ok inForce ∧
    (∀ x, ¬ (among (Settings.given ignoredKey Example.adding.overrides) x = true ∧
      among (Settings.given (negation ++ ignoredKey) Example.adding.overrides) x = true)) ∧
    ¬ Extends ignoredKey initiallyIgnored Example.adding.overrides inForce := by
  have hnone : Example.adding.overrides.lookup (negation ++ ignoredKey) = none := rfl
  refine ⟨_, rfl, fun x h => ?_, ?_⟩
  · simp [Settings.given, hnone, among] at h
  · rintro ⟨d, hd, hitems⟩
    cases hd
    exact absurd ((hitems (.text "W201")).mpr (by decide +kernel)) (by decide +kernel)

end Call

end ScopeLint
