import ScopeLint.Proofs.Checker.Resolution

/-! # When a name without a binding is reported

A name that no scope binds is accounted for by a star import in one of the scopes that a load looks
into. One of these scopes may be passed over: the scope around a comprehension, if it holds nothing
and the nearest scope that lends its names holds nothing either. It may still have a star import. -/
namespace ScopeLint

open List

namespace State

/-- The scopes that are to be looked into from here: the current one, the one around it if it is of
a comprehension, and those on the stack that lend their names. -/
def IsCandidate (s : State) (id : ScopeId) : Prop :=
  ∃ inner outer, s.stack = inner ++ id :: outer ∧ s.LooksInto inner id

/-- The scope around a comprehension is passed over: it does not lend its names, and neither it nor
the nearest scope that lends its names holds any. -/
def PassesOver (s : State) (id : ScopeId) : Prop :=
  ∃ top outer nearest, s.stack = top :: id :: outer ∧ s.kindOf top = some .generator ∧
    s.isLending id = false ∧ s.isEmptyScope id = true ∧
    outer.find? s.isLending = some nearest ∧ s.isEmptyScope nearest = true

/-- What accounts for a name that no scope binds, star imports apart. -/
def Accounts (s : State) (cfg : Setup) (key : Datum.Key) : Prop :=
  cfg.isBuiltin key = true ∨ (key = .text "__path__" ∧ cfg.isPackageFile = true) ∨
    (s.guards.headD (.list [])).lists (.text "NameError") = .ok true

variable {s : State} {top below id : ScopeId} {outer visible : List ScopeId}

theorem isCandidate_iff (hstack : s.stack = top :: outer) : s.IsCandidate id ↔
    id = top ∨ (s.kindOf top = some .generator ∧ outer.head? = some id) ∨
      (id ∈ outer ∧ s.isLending id = true) := by
  constructor
  · rintro ⟨inner, rest, hsplit, (rfl | ⟨g, rfl, hkind⟩) | hlends⟩
    · exact .inl (cons.inj (hstack.symm.trans hsplit)).1.symm
    · obtain ⟨rfl, rfl⟩ := cons.inj (hstack.symm.trans hsplit)
      exact .inr (.inl ⟨hkind, rfl⟩)
    · have hmem : id ∈ top :: outer := hstack ▸ hsplit ▸ by simp
      rcases mem_cons.mp hmem with rfl | hmem
      · exact .inl rfl
      · exact .inr (.inr ⟨hmem, hlends⟩)
  · rintro (rfl | ⟨hkind, hhead⟩ | ⟨hmem, hlends⟩)
    · exact ⟨[], outer, hstack, .inl (.inl rfl)⟩
    · obtain ⟨rest, rfl⟩ := head?_eq_some_iff.mp hhead
      exact ⟨[top], rest, hstack, .inl (.inr ⟨top, rfl, hkind⟩)⟩
    · obtain ⟨nearer, further, rfl⟩ := append_of_mem hmem
      exact ⟨top :: nearer, further, hstack, .inr hlends⟩

theorem passesOver_iff (hstack : s.stack = top :: below :: outer) : s.PassesOver id ↔
    id = below ∧ s.kindOf top = some .generator ∧ s.isLending below = false ∧
      s.isEmptyScope below = true ∧
      ∃ nearest, outer.find? s.isLending = some nearest ∧ s.isEmptyScope nearest = true := by
  constructor
  · rintro ⟨top', outer', nearest, hstack', hkind, hlends, hempty, hfind, hnearest⟩
    obtain ⟨rfl, htail⟩ := cons.inj (hstack.symm.trans hstack')
    obtain ⟨rfl, rfl⟩ := cons.inj htail
    exact ⟨rfl, hkind, hlends, hempty, nearest, hfind, hnearest⟩
  · rintro ⟨rfl, hkind, hlends, hempty, nearest, hfind, hnearest⟩
    exact ⟨top, outer, nearest, hstack, hkind, hlends, hempty, hfind, hnearest⟩

theorem PassesOver.isCandidate (h : s.PassesOver id) : s.IsCandidate id := by
  obtain ⟨top, outer, nearest, hstack, hkind, -⟩ := h
  exact ⟨[top], outer, hstack, .inl (.inr ⟨top, rfl, hkind⟩)⟩

theorem PassesOver.not_visible (h : s.Orderly) (hvisible : s.visibleScopes = .ok visible)
    (hover : s.PassesOver id) : id ∉ visible := by
  obtain ⟨top, outer, nearest, hstack, hkind, hlends, hempty, hfind, hnearest⟩ := hover
  obtain ⟨rest, hfilter⟩ : ∃ rest, (id :: outer).filter s.isLending = nearest :: rest := by
    rw [filter_cons_of_neg (by simp [hlends])]
    exact head?_eq_some_iff.mp (head?_filter ▸ hfind)
  have hpassed : s.visibleScopes = .ok (top :: (id :: outer).filter s.isLending) := by
    simp [visibleScopes, hstack, hkind, hfilter, hempty, hnearest]
  obtain rfl : visible = _ := Except.ok.inj (hvisible.symm.trans hpassed)
  intro hmem
  rcases mem_cons.mp hmem with rfl | hmem
  · have horder := h.stack_based.1
    rw [hstack, pairwise_cons] at horder
    exact absurd (horder.1 id (by simp)) (Nat.lt_irrefl id)
  · rw [(mem_filter.mp hmem).2] at hlends
    cases hlends

/-- A lookup goes into all candidates but the one that is passed over. -/
theorem Orderly.mem_visible_iff_candidate (h : s.Orderly)
    (hvisible : s.visibleScopes = .ok visible) :
    id ∈ visible ↔ s.IsCandidate id ∧ ¬ s.PassesOver id := by
  obtain ⟨top, outer, hstack⟩ := h.exists_stack
  constructor
  · intro hid
    exact ⟨(isCandidate_iff hstack).mpr (mem_of_visibleScopes hvisible hstack hid),
      fun hover => hover.not_visible h hvisible hid⟩
  · rintro ⟨hcandidate, hover⟩
    by_cases hkind : s.kindOf top = some .generator
    · obtain ⟨below, rest, rfl, hlending⟩ := h.exists_lending hstack hkind
      cases hfilter : (below :: rest).filter s.isLending with
      | nil =>
        obtain ⟨lender, hlender, hlends⟩ := hlending
        have hmem := mem_filter.mpr ⟨hlender, hlends⟩
        rw [hfilter] at hmem
        cases hmem
      | cons nearest more =>
        have hlenders (hmem : id ∈ below :: rest) (hlends : s.isLending id = true) :
            id ∈ nearest :: more := hfilter ▸ mem_filter.mpr ⟨hmem, hlends⟩
        simp only [visibleScopes, hstack, hkind, if_true, hfilter] at hvisible
        rw [isCandidate_iff hstack] at hcandidate
        split at hvisible
        · rename_i hpassed
          cases hvisible
          rcases hcandidate with rfl | ⟨-, hhead⟩ | ⟨hmem, hlends⟩
          · exact mem_cons_self
          · -- the scope around the comprehension lends its names, or it would be passed over
            obtain rfl : below = id := by simpa using hhead
            rcases hpassed with rfl | ⟨hnearest, hempty⟩
            · simp
            · cases hlends : s.isLending below with
              | true => exact mem_cons_of_mem _ (hlenders (by simp) hlends)
              | false =>
                refine absurd ?_ hover
                rw [filter_cons_of_neg (by simp [hlends])] at hfilter
                refine (passesOver_iff hstack).mpr ⟨rfl, hkind, hlends, hempty, nearest, ?_, hnearest⟩
                rw [← head?_filter, hfilter, head?_cons]
          · exact mem_cons_of_mem _ (hlenders hmem hlends)
        · cases hvisible
          rcases hcandidate with rfl | ⟨-, hhead⟩ | ⟨hmem, hlends⟩
          · exact mem_cons_self
          · obtain rfl : below = id := by simpa using hhead
            simp
          · exact mem_cons_of_mem _ (mem_cons_of_mem _ (hlenders hmem hlends))
    · rw [visibleScopes_of_ne_generator hstack hkind] at hvisible
      cases hvisible
      rcases (isCandidate_iff hstack).mp hcandidate with rfl | ⟨hkind', -⟩ | ⟨hmem, hlends⟩
      · exact mem_cons_self
      · exact absurd hkind' hkind
      · exact mem_cons_of_mem _ (mem_filter.mpr ⟨hmem, hlends⟩)

end State

namespace Check

variable {s : State} {key : Datum.Key}

theorem history_after_report (cfg : Setup) (k : Kind) (v : Value) (args : List Datum) (s : State) :
    (after (report cfg k v args) s).history = .reported k (s.datumOf v :: args) :: s.history := by
  simp only [after, report, bind_apply, datum_apply, reportWith, any_nil, Bool.false_eq_true,
    if_false, record, lift]
  cases isIgnored cfg k with
  | error e => rfl
  | ok ignored =>
    cases ignored with
    | true => rfl
    | false =>
      cases k.compose (.text cfg.filename) (s.datumOf v :: args) [("verbose", cfg.verbose)] with
      | error e => rfl
      | ok d =>
        cases hlines : cfg.ignoredLines.lists d.line with
        | error e => simp [hlines]
        | ok hidden => cases hidden <;> simp [hlines]

/-- What makes a name known where no candidate binds it: a star import in a candidate that is not
passed over, or what accounts for the name otherwise. -/
theorem knows_iff_of_unbound (cfg : Setup) (h : s.Orderly) {visible : List ScopeId}
    (hvisible : s.visibleScopes = .ok visible)
    (hunbound : ∀ id, s.IsCandidate id → s.binds key id = false) : s.Knows cfg visible key ↔
      (∃ id, s.IsCandidate id ∧ s.isStarred id = true ∧ ¬ s.PassesOver id) ∨
        s.Accounts cfg key := by
  constructor
  · intro hknows
    cases hknows with
    | bound hid hbound =>
      have hfree := hunbound _ ((h.mem_visible_iff_candidate hvisible).mp hid).1
      rw [State.binds, hbound] at hfree
      cases hfree
    | starred hid hstarred =>
      obtain ⟨hcandidate, hover⟩ := (h.mem_visible_iff_candidate hvisible).mp hid
      exact .inl ⟨_, hcandidate, hstarred, hover⟩
    | builtin hbuiltin => exact .inr (.inl hbuiltin)
    | path hkey hpackage => exact .inr (.inr (.inl ⟨hkey, hpackage⟩))
    | guarded hguard => exact .inr (.inr (.inr hguard))
  · rintro (⟨id, hcandidate, hstarred, hover⟩ | hbuiltin | ⟨hkey, hpackage⟩ | hguard)
    · exact .starred ((h.mem_visible_iff_candidate hvisible).mpr ⟨hcandidate, hover⟩) hstarred
    · exact .builtin hbuiltin
    · exact .path hkey hpackage
    · exact .guarded hguard

/-- At every moment of a run, a name that no candidate binds is reported exactly if only a candidate
that is passed over has a star import and nothing else accounts for the name. Otherwise the load
leaves everything as it is. So the rule that a star import in any candidate accounts for the name
holds unless one in a scope that is passed over is all that could. -/
theorem unbound_name_reported_iff (cfg : Setup) (stop : Moment → State → Bool) (next : Nat)
    (v : Value) (name : Datum) (key : Datum.Key) (hname : v.nameOf? = some name)
    (hkey : name.key = .ok key) (hunbound : ∀ id, (reached cfg stop next).IsCandidate id →
      (reached cfg stop next).binds key id = false) :
    let s := reached cfg stop next
    let reported := (after (load cfg v) s).history =
      .reported .undefinedName [s.datumOf v, name] :: s.history
    (reported ↔ (∀ id, s.IsCandidate id → s.isStarred id = true → s.PassesOver id) ∧
      ¬ s.Accounts cfg key) ∧
    (¬ reported → load cfg v s = .ok () s) ∧
    ((reported ↔ (∀ id, s.IsCandidate id → s.isStarred id = false) ∧ ¬ s.Accounts cfg key) ↔
      (∀ id, s.isStarred id = true → ¬ s.PassesOver id) ∨
        (∃ id, s.IsCandidate id ∧ s.isStarred id = true ∧ ¬ s.PassesOver id) ∨
        s.Accounts cfg key) := by
  intro s reported
  have horderly : s.Orderly := orderly_reached cfg stop next
  obtain ⟨visible, hvisible⟩ := horderly.visibleScopes_ok
  have hknows := knows_iff_of_unbound cfg horderly hvisible hunbound
  have hfind : (visible.find? fun id => (s.binding? id key).isSome) = none := by
    refine List.find?_eq_none.mpr fun id hid hbound => ?_
    have hfree := hunbound id ((horderly.mem_visible_iff_candidate hvisible).mp hid).1
    rw [State.binds, hbound] at hfree
    cases hfree
  have hsilent (hk : s.Knows cfg visible key) : load cfg v s = .ok () s :=
    load_of_knows_unbound hvisible hname hkey hfind hk
  have hreported : reported ↔ ¬ s.Knows cfg visible key := by
    constructor
    · intro hrep hk
      have hsame : (after (load cfg v) s).history = s.history := by rw [after, hsilent hk]
      exact absurd (congrArg List.length (hrep.symm.trans hsame)) (by simp)
    · intro hk
      have hload := load_of_not_knows horderly hvisible hname hkey hk
      have hafter : after (load cfg v) s = after (report cfg .undefinedName v [name]) s := by
        simp only [after, hload]
      exact (congrArg State.history hafter).trans (history_after_report cfg .undefinedName v [name] s)
  refine ⟨?_, fun hnot => hsilent (not_not.mp fun hk => hnot (hreported.mpr hk)), ?_⟩
  · rw [hreported, hknows, not_or]
    refine and_congr_left fun _ => ⟨fun hnone id hid hstar => ?_, ?_⟩
    · by_contra hover
      exact hnone ⟨id, hid, hstar, hover⟩
    · rintro hall ⟨id, hid, hstar, hover⟩
      exact hover (hall id hid hstar)
  · rw [hreported, hknows]
    constructor
    · intro hrule
      rw [or_iff_not_imp_right]
      intro hk id hstar hover
      rw [(hrule.mp hk).1 id hover.isCandidate] at hstar
      cases hstar
    · intro hcase
      constructor
      · intro hk
        refine ⟨fun id hid => ?_, fun hacc => hk (.inr hacc)⟩
        rw [Bool.eq_false_iff]
        intro hstar
        exact hk (.inl ⟨id, hid, hstar, hcase.resolve_right hk id hstar⟩)
      · rintro ⟨hnone, hacc⟩ (⟨id, hid, hstar, -⟩ | hacc')
        · rw [hnone id hid] at hstar
          cases hstar
        · exact hacc hacc'

end Check

namespace Sample

def starImport (line : Int) : Value :=
  .node ⟨0, "ImportFrom", some (.of line 0), [("module", .text "m"), ("names", .list [
    .node ⟨0, "alias", none, [("name", .text "*"), ("asname", .null)]⟩]), ("level", .int 0)]⟩

/-- In a class with a name and a star import, the node 9 is a load of `x` in a comprehension. -/
def filledClass : Setup :=
  setup [classDefinition 1 "C"
    [assign 2 "a", starImport 3, comprehension 4 "y" (name 4 "x" "Load")]]

/-- The same without the name: the node 5 is the load. -/
def starredClass : Setup :=
  setup [classDefinition 1 "C" [starImport 2, comprehension 3 "y" (name 3 "x" "Load")]]

end Sample

namespace Check

open Sample

/-- The star import of a class that holds a name is seen from a comprehension. -/
theorem unbound_name_reported_iff_filled :
    (∀ id, (reached filledClass (atNode 9) filledClass.root.size).IsCandidate id →
      (reached filledClass (atNode 9) filledClass.root.size).binds (.text "x") id = false) ∧
    (reached filledClass (atNode 9) filledClass.root.size).isStarred 1 = true ∧
    load filledClass (name 4 "x" "Load") (reached filledClass (atNode 9) filledClass.root.size) =
      .ok () (reached filledClass (atNode 9) filledClass.root.size) := by
  obtain ⟨hstack, hfree, hstarred, hkind, hempty⟩ :
      (reached filledClass (atNode 9) filledClass.root.size).stack = [2, 1, 0] ∧
      (∀ id ∈ [2, 1, 0],
        (reached filledClass (atNode 9) filledClass.root.size).binds (.text "x") id = false) ∧
      (reached filledClass (atNode 9) filledClass.root.size).isStarred 1 = true ∧
      (reached filledClass (atNode 9) filledClass.root.size).kindOf 2 = some .generator ∧
      (reached filledClass (atNode 9) filledClass.root.size).isEmptyScope 1 = false := by
    decide +kernel
  have hunbound : ∀ id, (reached filledClass (atNode 9) filledClass.root.size).IsCandidate id →
      (reached filledClass (atNode 9) filledClass.root.size).binds (.text "x") id = false := by
    rintro id ⟨inner, outer, hsplit, -⟩
    exact hfree id (hstack ▸ hsplit ▸ by simp)
  have hcandidate : (reached filledClass (atNode 9) filledClass.root.size).IsCandidate 1 :=
    (State.isCandidate_iff hstack).mpr (.inr (.inl ⟨hkind, rfl⟩))
  have hseen : ¬ (reached filledClass (atNode 9) filledClass.root.size).PassesOver 1 := by
    intro hover
    rw [((State.passesOver_iff hstack).mp hover).2.2.2.1] at hempty
    cases hempty
  obtain ⟨hreported, hsilent, -⟩ := unbound_name_reported_iff filledClass (atNode 9)
    filledClass.root.size (name 4 "x" "Load") (.text "x") (.text "x") rfl rfl hunbound
  exact ⟨hunbound, hstarred,
    hsilent fun hrep => hseen ((hreported.mp hrep).1 1 hcandidate hstarred)⟩

/-- The star import of a class that holds nothing, in a module that holds nothing, is not seen: the
name is reported, although the class is the scope around the comprehension. -/
theorem star_import_passed_over :
    (reached starredClass (atNode 5) starredClass.root.size).stack = [2, 1, 0] ∧
      (reached starredClass (atNode 5) starredClass.root.size).kindOf 2 = some .generator ∧
      (reached starredClass (atNode 5) starredClass.root.size).isStarred 1 = true ∧
      (∀ id ∈ [2, 1, 0],
        (reached starredClass (atNode 5) starredClass.root.size).binds (.text "x") id = false) ∧
      (final starredClass).messages.toList.map (·.text) =
        ["(none):2: 'from m import *' used; unable to detect undefined names",
          "(none):3: undefined name 'x'"] := by
  decide +kernel

end Check

end ScopeLint
