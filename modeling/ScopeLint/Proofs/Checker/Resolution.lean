import ScopeLint.Proofs.Checker.Recorded
import ScopeLint.Proofs.Checker.Visibility

/-! # Which binding a load finds

A load looks into the current scope, into the scope around a comprehension, and into the function and
module scopes on the stack. It marks the nearest binding of the name that it sees there, and nothing
else. -/
namespace ScopeLint

open List

variable {s : State} {key : Datum.Key} {id top : ScopeId} {outer : List ScopeId}

namespace State

/-- Whether a load looks into the scope `id` on the stack, where `inner` are the scopes further
in. -/
def LooksInto (s : State) (inner : List ScopeId) (id : ScopeId) : Prop :=
  s.SeesPast inner ∨ s.isLending id = true

def binds (s : State) (key : Datum.Key) (id : ScopeId) : Bool := (s.binding? id key).isSome

/-- The scope `id` is the nearest on the stack that a load looks into and that binds the name. -/
def Finds (s : State) (key : Datum.Key) (id : ScopeId) : Prop :=
  ∃ inner outer, s.stack = inner ++ id :: outer ∧ s.LooksInto inner id ∧ s.binds key id = true ∧
    ∀ nearer other between, inner = nearer ++ other :: between → s.LooksInto nearer other →
      s.binds key other = false

variable {below : ScopeId} {visible : List ScopeId}

theorem Finds.unique {other : ScopeId} (h : s.Finds key id) (k : s.Finds key other) :
    id = other := by
  obtain ⟨inner, outer, hstack, hlooks, hbinds, hnearer⟩ := h
  obtain ⟨inner', outer', hstack', hlooks', hbinds', hnearer'⟩ := k
  rw [hstack] at hstack'
  rcases append_eq_append_iff.mp hstack' with ⟨more, rfl, hrest⟩ | ⟨more, rfl, hrest⟩
  · cases more with
    | nil => exact (cons.inj hrest).1
    | cons first more =>
      obtain ⟨rfl, -⟩ := cons.inj hrest
      rw [hnearer' inner id more rfl hlooks] at hbinds
      cases hbinds
  · cases more with
    | nil => exact (cons.inj hrest).1.symm
    | cons first more =>
      obtain ⟨rfl, -⟩ := cons.inj hrest
      rw [hnearer inner' other more rfl hlooks'] at hbinds'
      cases hbinds'

theorem finds_top (hstack : s.stack = top :: outer) (h : s.binds key top = true) :
    s.Finds key top := by
  refine ⟨[], outer, hstack, .inl (.inl rfl), h, fun nearer other between hnil => ?_⟩
  simp at hnil

theorem finds_below (hstack : s.stack = top :: below :: outer)
    (hkind : s.kindOf top = some .generator) (htop : s.binds key top = false)
    (h : s.binds key below = true) : s.Finds key below := by
  refine ⟨[top], outer, hstack, .inl (.inr ⟨top, rfl, hkind⟩), h, ?_⟩
  intro nearer other between hinner _
  obtain ⟨rfl, rfl, -⟩ : nearer = [] ∧ other = top ∧ between = [] := by
    cases nearer with
    | nil => simpa [eq_comm] using hinner
    | cons first rest => simp at hinner
  exact htop

/-- The first of the scopes that lend their names, where nothing nearer is found. -/
theorem finds_lending (hstack : s.stack = top :: outer) (htop : s.binds key top = false)
    (hbelow : s.kindOf top = some .generator → ∀ below ∈ outer.head?, s.binds key below = false)
    (h : (outer.filter s.isLending).find? (s.binds key) = some id) : s.Finds key id := by
  rw [find?_filter, find?_eq_some_iff_append] at h
  obtain ⟨hid, nearer, further, rfl, hnone⟩ := h
  obtain ⟨hlends, hbinds⟩ : s.isLending id = true ∧ s.binds key id = true := by simpa using hid
  refine ⟨top :: nearer, further, hstack, .inr hlends, hbinds, ?_⟩
  intro before other between hinner hlooks
  cases before with
  | nil =>
    obtain ⟨rfl, -⟩ := cons.inj hinner
    exact htop
  | cons first before =>
    obtain ⟨rfl, rfl⟩ := cons.inj hinner
    rcases hlooks with (hnil | ⟨g, hg, hkind⟩) | hlends'
    · cases hnil
    · -- the scope right below the comprehension
      obtain ⟨rfl, rfl⟩ := cons.inj hg
      exact hbelow hkind other rfl
    · simpa [hlends'] using hnone other (by simp)

/-- Whether or not the scope around a comprehension is passed over, it is searched. -/
private theorem find?_around {nearest : ScopeId} (hnearest : s.isLending nearest = true) :
    (if nearest = below ∨ (s.isEmptyScope nearest = true ∧ s.isEmptyScope below = true) then
        (below :: outer).filter s.isLending
      else below :: (below :: outer).filter s.isLending).find? (s.binds key) =
      if s.binds key below = true then some below
      else ((below :: outer).filter s.isLending).find? (s.binds key) := by
  cases hbelow : s.binds key below with
  | false =>
    split
    · rfl
    · simp [hbelow]
  | true =>
    have hempty : s.isEmptyScope below = false := isEmptyScope_of_binding hbelow
    split
    · rename_i hpassed
      obtain rfl : nearest = below := by simpa [hempty] using hpassed
      simp [hnearest, hbelow]
    · simp [hbelow]

/-- The search through the visible scopes, from the inside out. -/
theorem Orderly.find?_visibleScopes (h : s.Orderly) (hvisible : s.visibleScopes = .ok visible)
    (hstack : s.stack = top :: outer) (key : Datum.Key) : visible.find? (s.binds key) =
      if s.binds key top = true then some top
      else if s.kindOf top = some .generator ∧ outer.head?.any (s.binds key) = true then outer.head?
      else (outer.filter s.isLending).find? (s.binds key) := by
  by_cases hkind : s.kindOf top = some .generator
  · obtain ⟨below, rest, rfl, hlending⟩ := h.exists_lending hstack hkind
    obtain ⟨nearest, -, hnearest, heq⟩ := visibleScopes_of_generator hstack hkind hlending
    rw [heq] at hvisible
    cases hvisible
    rw [find?_cons, find?_around hnearest]
    cases s.binds key top <;> simp [hkind]
  · rw [visibleScopes_of_ne_generator hstack hkind] at hvisible
    cases hvisible
    rw [find?_cons]
    cases s.binds key top <;> simp [hkind]

/-- The search through the visible scopes finds the nearest one that binds the name. -/
theorem Orderly.find?_eq_some_iff (h : s.Orderly) (hvisible : s.visibleScopes = .ok visible) :
    visible.find? (s.binds key) = some id ↔ s.Finds key id := by
  obtain ⟨top, outer, hstack⟩ := h.exists_stack
  have hsearch := h.find?_visibleScopes hvisible hstack key
  have hsound {id : ScopeId} (hfind : visible.find? (s.binds key) = some id) : s.Finds key id := by
    rw [hsearch] at hfind
    split at hfind
    · rename_i htop
      cases hfind
      exact finds_top hstack htop
    · rename_i htop
      have htop : s.binds key top = false := by simpa using htop
      split at hfind
      · rename_i hbelow
        obtain ⟨hkind, hbinds⟩ := hbelow
        obtain ⟨rest, rfl⟩ := head?_eq_some_iff.mp hfind
        exact finds_below hstack hkind htop (by simpa using hbinds)
      · rename_i hbelow
        refine finds_lending hstack htop (fun hkind below hhead => ?_) hfind
        simpa [hkind, Option.mem_def.mp hhead] using hbelow
  refine ⟨hsound, fun hfinds => ?_⟩
  cases hfind : visible.find? (s.binds key) with
  | some other => rw [hfinds.unique (hsound hfind)]
  | none =>
    -- nothing that a load looks into binds the name
    obtain ⟨inner, rest, hstack', hlooks, hbinds, -⟩ := hfinds
    rw [hstack] at hstack'
    rw [hfind] at hsearch
    cases htop : s.binds key top with
    | true => simp [htop] at hsearch
    | false =>
      simp only [htop, Bool.false_eq_true, if_false] at hsearch
      rcases hlooks with (rfl | ⟨g, rfl, hkind⟩) | hlends
      · obtain ⟨rfl, -⟩ := cons.inj hstack'
        rw [htop] at hbinds
        cases hbinds
      · obtain ⟨rfl, rfl⟩ := cons.inj hstack'
        simp [hkind, hbinds] at hsearch
      · have hmem : id ∈ top :: outer := by simp [hstack']
        rcases mem_cons.mp hmem with rfl | hmem
        · rw [htop] at hbinds
          cases hbinds
        split at hsearch
        · rename_i hbelow
          simp [← hsearch] at hbelow
        · have hnone := find?_eq_none.mp hsearch.symm id (mem_filter.mpr ⟨hmem, hlends⟩)
          exact absurd hbinds hnone

/-- From a function in the body of a class, no load finds a name of the class. -/
theorem Orderly.not_finds_of_class (h : s.Orderly) {inner : List ScopeId} {f : ScopeId}
    (hstack : s.stack = inner ++ id :: outer) (hclass : s.kindOf id = some .classBody)
    (hf : f ∈ inner) (hfunction : s.kindOf f = some .function) : ¬ s.Finds key id := by
  rintro ⟨inner', outer', hstack', hlooks, -, -⟩
  have horder := h.stack_based.1
  rcases hlooks with (rfl | ⟨g, rfl, hkind⟩) | hlends
  · obtain ⟨first, rest, rfl⟩ := exists_cons_of_ne_nil (ne_nil_of_mem hf)
    rw [hstack] at horder hstack'
    obtain ⟨rfl, -⟩ := cons.inj hstack'
    exact absurd ((pairwise_cons.mp horder).1 first (by simp)) (Nat.lt_irrefl first)
  · obtain ⟨first, rest, rfl⟩ := exists_cons_of_ne_nil (ne_nil_of_mem hf)
    rw [hstack] at horder hstack'
    obtain ⟨rfl, htail⟩ := cons.inj hstack'
    cases rest with
    | nil =>
      obtain rfl := mem_singleton.mp hf
      rw [hkind] at hfunction
      cases hfunction
    | cons second rest =>
      obtain ⟨rfl, -⟩ := cons.inj htail
      have horder := pairwise_cons.mp (pairwise_cons.mp horder).2
      exact absurd (horder.1 second (by simp)) (Nat.lt_irrefl second)
  · simp [isLending, hclass] at hlends

end State

namespace Check

variable {cfg : Setup} {v : Value} {name : Datum}

theorem load_of_finds (h : s.Orderly) (hstack : s.stack = top :: outer)
    (hname : v.nameOf? = some name) (hkey : name.key = .ok key) (hfinds : s.Finds key id) :
    load cfg v s = .ok () (s.withUse id key ⟨top, v⟩) := by
  obtain ⟨visible, hvisible⟩ := h.visibleScopes_ok
  have hfind : (visible.find? fun id => (s.binding? id key).isSome) = some id :=
    (h.find?_eq_some_iff hvisible).mpr hfinds
  obtain ⟨⟨top', scope⟩, hcurrent⟩ := current_ok_of_orderly h
  obtain ⟨-, ⟨rest, hstack'⟩, -⟩ := current_eq_ok hcurrent
  obtain ⟨rfl, -⟩ := cons.inj (hstack.symm.trans hstack')
  simp [load, hname, hvisible, hkey, lift, hfind, hcurrent, updateScope, record, State.withUse]

theorem says_of_not_finds (h : s.Orderly) (hname : v.nameOf? = some name)
    (hnone : ∀ key id, name.key = .ok key → ¬ s.Finds key id) :
    s.Says [.undefinedName] (after (load cfg v) s) := by
  have hends : EndsAt (.speech [.undefinedName]) (load cfg v) s := by
    simp only [load, hname]
    refine (ends_get s).bind fun _ t hget => ?_
    cases hget
    refine (ends_lift _ s).bind fun visible t hlift => ?_
    obtain ⟨hvisible, rfl⟩ := lift_apply_eq_ok.mp hlift
    refine (ends_lift _ t).bind fun key t' hlift => ?_
    obtain ⟨hkey, rfl⟩ := lift_apply_eq_ok.mp hlift
    have hfind : (visible.find? fun id => (t'.binding? id key).isSome) = none := by
      refine Option.eq_none_iff_forall_ne_some.mpr fun id hid => hnone key id hkey ?_
      exact (h.find?_eq_some_iff hvisible).mp hid
    rw [hfind]
    dsimp only
    split
    · exact ends_pure _ t'
    · split
      · exact ends_pure _ t'
      · refine (ends_lift _ t').bind fun guarded r _ => ?_
        split
        · exact (told_report (by simp) v [name]).ends cfg r
        · exact ends_pure _ r
  exact hends.after

theorem after_load_of_finds (h : s.Orderly) (hstack : s.stack = top :: outer)
    (hname : v.nameOf? = some name) (hkey : name.key = .ok key) (hfinds : s.Finds key id) :
    after (load cfg v) s = s.withUse id key ⟨top, v⟩ := by
  simp only [after, load_of_finds h hstack hname hkey hfinds]

/-- A load marks what it finds, or leaves every scope as it was. -/
theorem marks_or_keeps_scopes (cfg : Setup) (h : s.Orderly) (hname : v.nameOf? = some name) :
    (∃ key id use, s.Finds key id ∧ after (load cfg v) s = s.withUse id key use) ∨
      (after (load cfg v) s).scopes = s.scopes := by
  obtain ⟨top, outer, hstack⟩ := h.exists_stack
  by_cases hsome : ∃ key id, name.key = .ok key ∧ s.Finds key id
  · obtain ⟨key, id, hkey, hfinds⟩ := hsome
    exact .inl ⟨key, id, ⟨top, v⟩, hfinds, after_load_of_finds h hstack hname hkey hfinds⟩
  · have hnone (key : Datum.Key) (id : ScopeId) (hkey : name.key = .ok key) : ¬ s.Finds key id :=
      fun hfinds => hsome ⟨key, id, hkey, hfinds⟩
    exact .inr (says_of_not_finds h hname hnone).scopes_eq

/-- A load in a function leaves the classes around the function as they were. -/
theorem scope?_class_after_load (h : s.Orderly) (hname : v.nameOf? = some name)
    {inner : List ScopeId} {c f : ScopeId} (hstack : s.stack = inner ++ c :: outer)
    (hclass : s.kindOf c = some .classBody) (hf : f ∈ inner)
    (hfunction : s.kindOf f = some .function) : (after (load cfg v) s).scope? c = s.scope? c := by
  rcases marks_or_keeps_scopes cfg h hname with ⟨key, id, use, hfinds, ht⟩ | hsame
  · have hne : c ≠ id := by
      rintro rfl
      exact h.not_finds_of_class hstack hclass hf hfunction hfinds
    have hscopes : (s.withUse id key use).scopes = s.scopes.modify id (·.markUsed key use) := rfl
    rw [ht, State.scope?_modified hscopes, if_neg hne]
  · rw [State.scope?, hsame]
    rfl

theorem changed_after_load_unique (h : s.Orderly) (hname : v.nameOf? = some name) {id' : ScopeId}
    {key' : Datum.Key} (hchanged : (after (load cfg v) s).binding? id key ≠ s.binding? id key)
    (hchanged' : (after (load cfg v) s).binding? id' key' ≠ s.binding? id' key') :
    id = id' ∧ key = key' := by
  rcases marks_or_keeps_scopes cfg h hname with ⟨k, found, use, -, ht⟩ | hsame
  · have hat (i : ScopeId) (j : Datum.Key)
        (hne : (after (load cfg v) s).binding? i j ≠ s.binding? i j) : i = found ∧ j = k := by
      refine Decidable.byContradiction fun hother => ?_
      rw [ht, State.binding?_withUse, if_neg hother] at hne
      exact hne rfl
    obtain ⟨rfl, rfl⟩ := hat id key hchanged
    obtain ⟨rfl, rfl⟩ := hat id' key' hchanged'
    exact ⟨rfl, rfl⟩
  · refine absurd ?_ hchanged
    simp only [State.binding?, State.scope?, hsame]

/-- At every moment of a run, a load of a name marks the nearest binding among those that it looks
at as used by this load in the current scope, it changes nothing else and says nothing. If there is
none, no scope changes. So from a function in a class no name of the class is marked, and no load
marks two bindings. -/
theorem load_marks_nearest (cfg : Setup) (stop : Moment → State → Bool) (next : Nat) (v : Value)
    (name : Datum) (hname : v.nameOf? = some name) :
    let s := reached cfg stop next
    let t := after (load cfg v) s
    (∀ key id, name.key = .ok key → s.Finds key id → ∃ top outer, s.stack = top :: outer ∧
      load cfg v s = .ok () t ∧ t = s.withUse id key ⟨top, v⟩ ∧
      (∃ b, s.binding? id key = some b ∧
        t.binding? id key = some { b with used := some ⟨top, v⟩ }) ∧
      ∀ other k, ¬ (other = id ∧ k = key) → t.binding? other k = s.binding? other k) ∧
    ((∀ key id, name.key = .ok key → ¬ s.Finds key id) → t.scopes = s.scopes) ∧
    (∀ inner c outer, s.stack = inner ++ c :: outer → s.kindOf c = some .classBody →
      (∃ f ∈ inner, s.kindOf f = some .function) → t.scope? c = s.scope? c) ∧
    (∀ id key id' key', t.binding? id key ≠ s.binding? id key →
      t.binding? id' key' ≠ s.binding? id' key' → id = id' ∧ key = key') := by
  intro s t
  have horderly : s.Orderly := orderly_reached cfg stop next
  refine ⟨fun key id hkey hfinds => ?_, fun hnone => ?_, ?_, ?_⟩
  · obtain ⟨top, outer, hstack⟩ := horderly.exists_stack
    have ht : t = s.withUse id key ⟨top, v⟩ :=
      after_load_of_finds horderly hstack hname hkey hfinds
    have hload : load cfg v s = .ok () t :=
      ht ▸ load_of_finds horderly hstack hname hkey hfinds
    obtain ⟨-, -, -, -, hbinds, -⟩ := hfinds
    obtain ⟨b, hb⟩ := Option.isSome_iff_exists.mp hbinds
    refine ⟨top, outer, hstack, hload, ht, ⟨b, hb, ?_⟩, fun other k hne => ?_⟩
    · simp [ht, State.binding?_withUse, hb]
    · rw [ht, State.binding?_withUse, if_neg hne]
  · exact (says_of_not_finds horderly hname hnone).scopes_eq
  · rintro inner c outer hstack hclass ⟨f, hf, hfunction⟩
    exact scope?_class_after_load horderly hname hstack hclass hf hfunction
  · intro id key id' key' hchanged hchanged'
    exact changed_after_load_unique horderly hname hchanged hchanged'

end Check

namespace Sample

def number (line value : Int) : Value :=
  .node ⟨0, "Num", some (.of line 0), [("n", .int value)]⟩

def assign (line : Int) (id : String) : Value :=
  .node ⟨0, "Assign", some (.of line 0),
    [("targets", .list [name line id "Store"]), ("value", number line 1)]⟩

/-- The module and a class bind `x`, and a method of the class loads it at the node 12. -/
def method : Setup :=
  setup [assign 1 "x", classDefinition 2 "C" [assign 3 "x", function 4 "m" [name 5 "x" "Load"]]]

end Sample

namespace Check

open Sample

/-- The name of the module is marked, and the class stays as it is, although it is nearer. -/
theorem load_marks_nearest_method :
    (reached method (atNode 12) method.root.size).stack = [2, 1] ++ 0 :: [] ∧
      (reached method (atNode 12) method.root.size).binds (.text "x") 1 = true ∧
      load method (name 5 "x" "Load") (reached method (atNode 12) method.root.size) = .ok ()
        ((reached method (atNode 12) method.root.size).withUse 0 (.text "x")
          ⟨2, name 5 "x" "Load"⟩) ∧
      (after (load method (name 5 "x" "Load"))
          (reached method (atNode 12) method.root.size)).scope? 1 =
        (reached method (atNode 12) method.root.size).scope? 1 := by
  have hstack : (reached method (atNode 12) method.root.size).stack = [2, 1] ++ 0 :: [] := by
    decide +kernel
  have hclass : (reached method (atNode 12) method.root.size).kindOf 1 = some .classBody := by
    decide +kernel
  have hfunction : (reached method (atNode 12) method.root.size).kindOf 2 = some .function := by
    decide +kernel
  have hbound : (reached method (atNode 12) method.root.size).binds (.text "x") 1 = true := by
    decide +kernel
  have hfinds : (reached method (atNode 12) method.root.size).Finds (.text "x") 0 := by
    refine State.finds_lending hstack (by decide +kernel) ?_ (by decide +kernel)
    intro hgenerator
    rw [hfunction] at hgenerator
    cases hgenerator
  obtain ⟨hfound, -, hpast, -⟩ := load_marks_nearest method (atNode 12) method.root.size
    (name 5 "x" "Load") (.text "x") rfl
  obtain ⟨top, outer, htop, hload, ht, -, -⟩ := hfound (.text "x") 0 rfl hfinds
  obtain ⟨rfl, -⟩ := List.cons.inj (hstack.symm.trans htop)
  refine ⟨hstack, hbound, ?_, hpast [2] 1 [0] hstack hclass ⟨2, by simp, hfunction⟩⟩
  rw [← ht]
  exact hload

end Check

end ScopeLint
