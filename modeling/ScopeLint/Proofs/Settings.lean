import ScopeLint.Proofs.Effects
import ScopeLint.Settings

/-! # The general list of what is ignored, under overrides and for a file -/
namespace ScopeLint

open List

variable {items : List Datum} {x : String}

theorem Datum.among_text : among items (.text x) = true ↔ .text x ∈ items := by
  rw [among, any_eq_true]
  constructor
  · rintro ⟨y, hy, hsame⟩
    cases y with
    | text s =>
      rw [same, beq_iff_eq] at hsame
      exact hsame ▸ hy
    | _ => simp [same, number?, integer?] at hsame
  · intro h
    exact ⟨_, h, by simp [same]⟩

theorem Datum.mem_distinct_text : .text x ∈ distinct items ↔ .text x ∈ items := by
  have hfold (rest known : List Datum) : .text x ∈
      rest.foldl (fun known y => if among known y then known else known ++ [y]) known ↔
        .text x ∈ known ∨ .text x ∈ rest := by
    induction rest generalizing known with
    | nil => simp
    | cons y rest ih =>
      rw [foldl_cons, ih, mem_cons, ← or_assoc]
      refine or_congr_left ?_
      split
      · rename_i hknown
        refine (or_iff_left_of_imp ?_).symm
        rintro rfl
        exact among_text.mp hknown
      · rw [mem_append, mem_singleton]
  exact (hfold items []).trans (by simp)

namespace Settings

variable {key name : String} {value d more : Datum} {settings revised overrides inForce : Settings}
  {items : List Datum}

private theorem lookup_cons_of_ne (h : key ≠ name) (value : Datum) (rest : Settings) :
    lookup key ((name, value) :: rest) = rest.lookup key := by
  have hk : (key == name) = false := by simpa using h
  rw [lookup_cons, hk]

theorem lookup_set (key other : String) (value : Datum) (settings : Settings) :
    (settings.set key value).lookup other =
      if other = key then some value else settings.lookup other := by
  induction settings with
  | nil =>
    by_cases h : other = key
    · simp [set, h]
    · simp [set, h, lookup_cons_of_ne h]
  | cons e rest ih =>
    obtain ⟨name, old⟩ := e
    by_cases hname : name = key
    · subst hname
      by_cases h : other = name
      · simp [set, h]
      · simp [set, h, lookup_cons_of_ne h]
    · by_cases h : other = name
      · subst h
        simp [set, hname]
      · simp [set, hname, lookup_cons_of_ne h, ih]

theorem set_of_lookup (h : settings.lookup key = some value) :
    settings.set key value = settings := by
  induction settings with
  | nil => simp at h
  | cons e rest ih =>
    obtain ⟨name, old⟩ := e
    by_cases hname : name = key
    · simp_all [set]
    · rw [lookup_cons_of_ne fun hk => hname hk.symm] at h
      simp [set, hname, ih h]

theorem lookup_update_of_not_mem (settings more : Settings) (key : String)
    (h : ∀ e ∈ more, e.1 ≠ key) : (settings.update more).lookup key = settings.lookup key := by
  induction more generalizing settings with
  | nil => rfl
  | cons e rest ih =>
    have hrest := ih (settings.set e.1 e.2) (fun x hx => h x (by simp [hx]))
    have he : key ≠ e.1 := fun hk => h e (by simp) hk.symm
    simpa [update, lookup_set, he] using hrest

theorem lookup_update_of_lookup (settings more : Settings) (hd : (more.map Prod.fst).Nodup)
    (h : more.lookup key = some value) : (settings.update more).lookup key = some value := by
  induction more generalizing settings with
  | nil => simp at h
  | cons e rest ih =>
    obtain ⟨name, old⟩ := e
    simp only [map_cons, nodup_cons] at hd
    by_cases hk : key = name
    · subst hk
      have hrest : ∀ x ∈ rest, x.1 ≠ key := by
        intro x hx he
        exact hd.1 (mem_map.mpr ⟨x, hx, he⟩)
      have hv : old = value := by simpa using h
      have hu := lookup_update_of_not_mem (settings.set key old) rest key hrest
      rw [lookup_set, if_pos rfl, hv] at hu
      simpa [update, hv] using hu
    · rw [lookup_cons_of_ne hk] at h
      exact ih (settings.set name old) hd.2 h

/-- Whether some override is about a setting, by its name or by the name with a negation. -/
def isAbout (key : String) (overrides : Settings) : Bool :=
  overrides.any fun e => subject e.1 == key

theorem subject_ignoredKey : subject ignoredKey = ignoredKey := by decide

theorem lookup_applyOverride (h : settings.applyOverride name value = .ok revised)
    (hname : name ≠ key) (hs : subject name ≠ key) : revised.lookup key = settings.lookup key := by
  unfold applyOverride at h
  split at h
  · obtain ⟨old, -, h⟩ := bind_eq_ok.mp h
    obtain ⟨items, -, h⟩ := bind_eq_ok.mp h
    obtain ⟨new, -, h⟩ := bind_eq_ok.mp h
    cases h
    rw [lookup_set, if_neg fun hk => hs hk.symm]
  · cases h
    rw [lookup_set, if_neg fun hk => hname hk.symm]

theorem lookup_foldlM_applyOverride
    (h : overrides.foldlM (fun known e => known.applyOverride e.1 e.2) settings = .ok revised)
    (hn : ∀ e ∈ overrides, e.1 ≠ key) (hs : ∀ e ∈ overrides, subject e.1 ≠ key) :
    revised.lookup key = settings.lookup key := by
  induction overrides generalizing settings with
  | nil => cases h; rfl
  | cons e rest ih =>
    rw [foldlM_cons] at h
    obtain ⟨next, he, h⟩ := bind_eq_ok.mp h
    have hnext := lookup_applyOverride he (hn e (by simp)) (hs e (by simp))
    rw [ih h (fun x hx => hn x (by simp [hx])) (fun x hx => hs x (by simp [hx])), hnext]

/-- Overrides that are not about the general list of what is ignored leave it as it is. -/
theorem lookup_override_ignoredKey (h : settings.override overrides = .ok inForce)
    (ha : isAbout ignoredKey overrides = false) :
    inForce.lookup ignoredKey = settings.lookup ignoredKey := by
  have hs : ∀ e ∈ overrides, subject e.1 ≠ ignoredKey := by simpa [isAbout] using ha
  have hn : ∀ e ∈ overrides, e.1 ≠ ignoredKey := by
    intro e he hk
    exact hs e he (by rw [hk, subject_ignoredKey])
  obtain ⟨revised, hr, h⟩ := bind_eq_ok.mp h
  cases h
  rw [lookup_update_of_not_mem _ _ _ hn, lookup_foldlM_applyOverride hr hn hs]

/-- The general list of what is ignored is in force as the caller gives it. -/
theorem lookup_override_of_lookup (h : settings.override overrides = .ok inForce)
    (hd : (overrides.map Prod.fst).Nodup) (hl : overrides.lookup key = some value) :
    inForce.lookup key = some value := by
  obtain ⟨revised, -, h⟩ := bind_eq_ok.mp h
  cases h
  exact lookup_update_of_lookup revised overrides hd hl

/-- With the shared list there is always something that is ignored in general. -/
theorem lookup_withShared (ignored : List Datum) (settings : Settings) :
    (settings.withShared ignored).lookup ignoredKey =
      some ((settings.lookup ignoredKey).getD (.list ignored)) := by
  unfold withShared
  split
  · rename_i value hv
    simp [hv]
  · rename_i hn
    simp [lookup_set, hn]

theorem isAbout_of_lookup (h : (overrides.lookup ignoredKey).isSome) :
    isAbout ignoredKey overrides = true := by
  obtain ⟨value, hv⟩ := Option.isSome_iff_exists.mp h
  obtain ⟨before, after, ho, -⟩ := lookup_eq_some_iff.mp hv
  simp [isAbout, ho, subject_ignoredKey]

/-- What is ignored in files of that name beyond what is ignored in general. -/
def addedIn (settings : Settings) (filename : String) : List Datum :=
  match settings.lookup (ignoredForKey (Path.base filename)) with
  | some specific => if specific.truthy then (specific.items.toOption).getD [] else []
  | none => []

private theorem add_ne_list (hd : ∀ xs, d ≠ .list xs) : d.add more ≠ .ok (.list items) := by
  unfold Datum.add
  split
  · simp
  · exact absurd rfl (hd _)
  · split
    · simp
    · split <;> simp

private theorem extend_eq_list (h : extend d more = .ok (.list items)) :
    ∃ xs ys, d = .list xs ∧ more.items = .ok ys ∧ items = xs ++ ys := by
  by_cases hd : ∃ xs, d = .list xs
  · obtain ⟨xs, rfl⟩ := hd
    cases hm : more.items with
    | error e => simp [extend, hm, Except.map] at h
    | ok ys => exact ⟨xs, ys, rfl, rfl, by simpa [extend, hm, Except.map, eq_comm] using h⟩
  · have hd : ∀ xs, d ≠ .list xs := fun xs hx => hd ⟨xs, hx⟩
    have he : extend d more = d.add more := by
      cases d with
      | list xs => exact absurd rfl (hd xs)
      | _ => rfl
    exact absurd (he ▸ h) (add_ne_list hd)

/-- Where a list is in force, it is the general one with what is added for the file. -/
theorem ignoredIn_eq_list {settings : Settings} {filename : String} {items : List Datum}
    (h : settings.ignoredIn filename = .ok (.list items)) :
    ∃ general, (settings.lookup ignoredKey).getD (.list []) = .list general ∧
      items = general ++ settings.addedIn filename := by
  simp only [ignoredIn] at h
  unfold addedIn
  cases hl : settings.lookup (ignoredForKey (Path.base filename)) with
  | none =>
    rw [hl] at h
    exact ⟨items, by simpa using h, by simp⟩
  | some specific =>
    rw [hl] at h
    by_cases ht : specific.truthy
    · simp only [ht, if_true] at h ⊢
      obtain ⟨general, added, hg, ha, rfl⟩ := extend_eq_list h
      exact ⟨general, hg, by simp [ha, Except.toOption]⟩
    · simp only [ht] at h ⊢
      exact ⟨items, by simpa using h, by simp⟩

end Settings

end ScopeLint
