import ScopeLint.Proofs.Session.Independence

/-! # Settings that differ in one entry at most

An option or an override is about one setting and leaves all others alone. Two checks under settings
that differ only in an entry that neither looks at are the same check. -/
namespace ScopeLint

namespace Settings

variable {key : String} {a b : Settings} {ignored more : List Datum}

/-- The settings say the same of everything but `key`. -/
def AgreeBut (key : String) (a b : Settings) : Prop :=
  ∀ other, other ≠ key → a.lookup other = b.lookup other

theorem AgreeBut.refl (key : String) (a : Settings) : AgreeBut key a a := fun _ _ => rfl

theorem AgreeBut.symm (h : AgreeBut key a b) : AgreeBut key b a :=
  fun other hother => (h other hother).symm

theorem AgreeBut.trans {c : Settings} (h : AgreeBut key a b) (h' : AgreeBut key b c) :
    AgreeBut key a c :=
  fun other hother => (h other hother).trans (h' other hother)

theorem agreeBut_set (key : String) (value : Datum) (a : Settings) :
    AgreeBut key (a.set key value) a := by
  intro other hother
  rw [lookup_set, if_neg hother]

theorem AgreeBut.set (h : AgreeBut key a b) (name : String) (value : Datum) :
    AgreeBut key (a.set name value) (b.set name value) := by
  intro other hother
  rw [lookup_set, lookup_set, h other hother]

theorem AgreeBut.update (h : AgreeBut key a b) (overrides : Settings) :
    AgreeBut key (a.update overrides) (b.update overrides) := by
  induction overrides generalizing a b with
  | nil => exact h
  | cons e rest ih => exact ih (h.set e.1 e.2)

theorem lookup_withShared_of_ne {name : String} (h : name ≠ ignoredKey) :
    (a.withShared ignored).lookup name = a.lookup name := by
  unfold withShared
  split
  · rfl
  · rw [lookup_set, if_neg h]

theorem AgreeBut.withShared (h : AgreeBut key a b) (hkey : key = ignoredKey ∨ ignored = more) :
    AgreeBut key (a.withShared ignored) (b.withShared more) := by
  intro other hother
  by_cases hgeneral : other = ignoredKey
  · subst hgeneral
    rw [lookup_withShared, lookup_withShared, h _ hother]
    rcases hkey with rfl | rfl
    · exact absurd rfl hother
    · rfl
  · rw [lookup_withShared_of_ne hgeneral, lookup_withShared_of_ne hgeneral, h _ hother]

theorem any_contains (names : List String) (a : Settings) :
    (a.any fun e => names.contains e.1) = names.any fun name => (a.lookup name).isSome := by
  rw [Bool.eq_iff_iff, List.any_eq_true, List.any_eq_true]
  constructor
  · rintro ⟨e, he, hname⟩
    refine ⟨e.1, by simpa using hname, ?_⟩
    rw [Option.isSome_iff_ne_none]
    intro hnone
    exact absurd (List.lookup_eq_none_iff.mp hnone e he) (by simp)
  · rintro ⟨name, hname, hset⟩
    obtain ⟨value, hvalue⟩ := Option.isSome_iff_exists.mp hset
    obtain ⟨before, after, rfl, -⟩ := List.lookup_eq_some_iff.mp hvalue
    exact ⟨(name, value), by simp, by simpa using hname⟩

section Options

def optionValue (ignored : List Datum) (settings : Settings) (name value : String) : Datum :=
  match formOf name with
  | .list =>
    .list (revise (isNegated name) (Datum.distinct (itemsSoFar ignored settings (subject name)))
      ((Text.split ',' value).map Datum.text))
  | .switch => .bool !(Text.trim (Text.lower value).toList == "false".toList || value == "")
  | .text => .text value

theorem applyOption_eq (ignored : List Datum) (a : Settings) (name value : String) :
    applyOption ignored a name value = a.set (subject name) (optionValue ignored a name value) := by
  unfold applyOption optionValue
  cases formOf name <;> rfl

theorem AgreeBut.optionValue (h : AgreeBut key a b) (hkey : key = ignoredKey ∨ ignored = more)
    {name : String} (hname : subject name ≠ key) (value : String) :
    optionValue ignored a name value = optionValue more b name value := by
  unfold Settings.optionValue itemsSoFar
  rw [h.withShared hkey _ hname]

/-- Options on top keep the agreement, also those about the setting that is left out. -/
theorem AgreeBut.applyOption (h : AgreeBut key a b) (hkey : key = ignoredKey ∨ ignored = more)
    (name value : String) : AgreeBut key (applyOption ignored a name value)
      (applyOption more b name value) := by
  rw [applyOption_eq, applyOption_eq]
  by_cases hname : subject name = key
  · rw [hname]
    exact (agreeBut_set key _ a).trans (h.trans (agreeBut_set key _ b).symm)
  · rw [h.optionValue hkey hname]
    exact h.set _ _

theorem AgreeBut.applyOptions (h : AgreeBut key a b) (hkey : key = ignoredKey ∨ ignored = more)
    (options : Config.Options) :
    AgreeBut key (a.applyOptions ignored options) (b.applyOptions more options) := by
  induction options generalizing a b with
  | nil => exact h
  | cons e rest ih => exact ih (h.applyOption hkey e.1 e.2)

/-- An option more makes a difference for the setting that it is about, and for no other. -/
theorem agreeBut_applyOptions_cons (ignored : List Datum) (a : Settings) (before after : Config.Options)
    (name value : String) : AgreeBut (subject name)
      (a.applyOptions ignored (before ++ (name, value) :: after))
      (a.applyOptions ignored (before ++ after)) := by
  rw [applyOptions_append, applyOptions_append]
  refine AgreeBut.applyOptions ?_ (Or.inr rfl) after
  dsimp only
  rw [applyOption_eq]
  exact agreeBut_set _ _ _

end Options

section Overrides

variable {overrides : Settings}

/-- No override is about the setting, by any of its names. -/
def Spares (key : String) (overrides : Settings) : Prop :=
  ∀ e ∈ overrides, subject e.1 ≠ key ∧ e.1 ≠ key

instance (key : String) (overrides : Settings) : Decidable (Spares key overrides) :=
  inferInstanceAs (Decidable (∀ e ∈ overrides, subject e.1 ≠ key ∧ e.1 ≠ key))

theorem lookup_override_of_spares {inForce : Settings} (h : a.override overrides = .ok inForce)
    (hspares : Spares key overrides) : inForce.lookup key = a.lookup key := by
  obtain ⟨revised, hrevised, h⟩ := bind_eq_ok.mp h
  cases h
  rw [lookup_update_of_not_mem _ _ _ fun e he => (hspares e he).2]
  exact lookup_foldlM_applyOverride hrevised (fun e he => (hspares e he).2)
    fun e he => (hspares e he).1

/-- Two settings that agree but for `key`, or one and the same failure. -/
def AgreeButIn (key : String) : Except Fault Settings → Except Fault Settings → Prop
  | .ok a, .ok b => AgreeBut key a b
  | .error e, .error f => e = f
  | _, _ => False

theorem AgreeBut.applyOverride (h : AgreeBut key a b) {name : String} (hname : subject name ≠ key)
    (value : Datum) : AgreeButIn key (a.applyOverride name value) (b.applyOverride name value) := by
  unfold Settings.applyOverride
  rw [h _ hname]
  split
  · rename_i old hold
    cases hset : Datum.setOf old with
    | error e => rfl
    | ok set =>
      cases hitems : value.items with
      | error e => rfl
      | ok items =>
        simp only [ok_bind]
        cases Datum.setOf items with
        | error e => rfl
        | ok new => exact h.set _ _
  · exact h.set _ _

theorem AgreeButIn.bind {x y : Except Fault Settings} {f g : Settings → Except Fault Settings}
    (h : AgreeButIn key x y) (hf : ∀ a b, AgreeBut key a b → AgreeButIn key (f a) (g b)) :
    AgreeButIn key (x >>= f) (y >>= g) := by
  cases x with
  | error e =>
    cases y with
    | error e' => exact h
    | ok b => exact h.elim
  | ok a =>
    cases y with
    | error e' => exact h.elim
    | ok b => exact hf a b h

theorem AgreeBut.override (h : AgreeBut key a b) (hspares : Spares key overrides) :
    AgreeButIn key (a.override overrides) (b.override overrides) := by
  have hfold (rest : Settings) (hrest : Spares key rest) (a b : Settings) (h : AgreeBut key a b) :
      AgreeButIn key (rest.foldlM (fun known e => known.applyOverride e.1 e.2) a)
        (rest.foldlM (fun known e => known.applyOverride e.1 e.2) b) := by
    induction rest generalizing a b with
    | nil => exact h
    | cons e rest ih =>
      rw [List.foldlM_cons, List.foldlM_cons]
      refine (h.applyOverride (hrest e (by simp)).1 e.2).bind ?_
      exact ih fun x hx => hrest x (by simp [hx])
  exact (hfold overrides hspares a b h).bind fun a b h => h.update overrides

end Overrides

end Settings

end ScopeLint
