import ScopeLint.Proofs.Checker.ScopeStack

/-! # Names of comprehensions

The scope of a comprehension does not lend its names. They are seen in the comprehension itself and in
a comprehension directly inside it, but not further in: neither in a function there, nor in a
comprehension in a comprehension there. -/
namespace ScopeLint

open List

variable {s : State} {visible : List ScopeId} {key : Datum.Key}

namespace State

variable {top id : ScopeId} {outer : List ScopeId}

/-- The visible scopes: the current one, the one around it if it is of a comprehension, and those
that lend their names. -/
theorem mem_of_visibleScopes (h : s.visibleScopes = .ok visible) (hstack : s.stack = top :: outer)
    (hid : id ∈ visible) : id = top ∨ (s.kindOf top = some .generator ∧ outer.head? = some id) ∨
      (id ∈ outer ∧ s.isLending id = true) := by
  have hlending (hid : id ∈ outer.filter s.isLending) : id ∈ outer ∧ s.isLending id = true :=
    mem_filter.mp hid
  simp only [visibleScopes, hstack] at h
  split at h
  · rename_i hkind
    split at h
    · rename_i nearest rest below more hfilter
      split at h
      · cases h
        rcases mem_cons.mp hid with rfl | hid
        · exact .inl rfl
        · exact .inr (.inr (hlending hid))
      · cases h
        rcases mem_cons.mp hid with rfl | hid
        · exact .inl rfl
        rcases mem_cons.mp hid with rfl | hid
        · exact .inr (.inl ⟨hkind, rfl⟩)
        · exact .inr (.inr (hlending hid))
    · cases h
  · cases h
    rcases mem_cons.mp hid with rfl | hid
    · exact .inl rfl
    · exact .inr (.inr (hlending hid))

/-- Names of a scope are seen past the scopes further in if there are none, or just the scope of one
comprehension. -/
def SeesPast (s : State) (inner : List ScopeId) : Prop :=
  inner = [] ∨ ∃ top, inner = [top] ∧ s.kindOf top = some .generator

/-- What makes a name known where `visible` are the scopes that are looked at. -/
inductive Knows (s : State) (cfg : Setup) (visible : List ScopeId) (key : Datum.Key) : Prop
  | bound {id : ScopeId} : id ∈ visible → (s.binding? id key).isSome = true →
      Knows s cfg visible key
  | starred {id : ScopeId} : id ∈ visible → s.isStarred id = true → Knows s cfg visible key
  | builtin : cfg.isBuiltin key = true → Knows s cfg visible key
  | path : key = .text "__path__" → cfg.isPackageFile = true → Knows s cfg visible key
  | guarded : (s.guards.headD (.list [])).lists (.text "NameError") = .ok true →
      Knows s cfg visible key

variable {g : ScopeId} {inner : List ScopeId}

theorem isLending_of_generator (hkind : s.kindOf g = some .generator) : s.isLending g = false := by
  simp [isLending, hkind]

theorem isEmptyScope_of_binding (h : (s.binding? g key).isSome = true) :
    s.isEmptyScope g = false := by
  unfold binding? at h
  unfold isEmptyScope
  cases hscope : s.scope? g with
  | none => simp [hscope] at h
  | some scope =>
    rw [hscope] at h
    cases hentries : scope.entries with
    | nil => simp [Scope.find?, hentries] at h
    | cons entry rest => simp [hentries]

theorem exists_binding_of_isEmptyScope (h : s.isEmptyScope g = false) :
    ∃ key b, s.binding? g key = some b := by
  unfold isEmptyScope at h
  unfold binding?
  cases hscope : s.scope? g with
  | none => simp [hscope] at h
  | some scope =>
    cases hentries : scope.entries with
    | nil => simp [hscope, hentries] at h
    | cons entry rest => exact ⟨entry.key, entry.binding, by simp [Scope.find?, hentries]⟩

theorem Orderly.mem_visibleScopes_iff (h : s.Orderly) (hvisible : s.visibleScopes = .ok visible)
    (hstack : s.stack = inner ++ g :: outer) (hkind : s.kindOf g = some .generator)
    (hempty : s.isEmptyScope g = false) : g ∈ visible ↔ s.SeesPast inner := by
  have hlending := isLending_of_generator hkind
  have horder := h.stack_based.1
  constructor
  · intro hg
    cases inner with
    | nil => exact .inl rfl
    | cons top rest =>
      rw [hstack, cons_append, pairwise_cons] at horder
      rcases mem_of_visibleScopes hvisible hstack hg with rfl | ⟨htop, hhead⟩ | ⟨-, hlend⟩
      · exact absurd (horder.1 g (by simp)) (Nat.lt_irrefl g)
      · cases rest with
        | nil => exact .inr ⟨top, rfl, htop⟩
        | cons next rest =>
          obtain rfl : next = g := by simpa using hhead
          rw [cons_append, pairwise_cons] at horder
          exact absurd (horder.2.1 next (by simp)) (Nat.lt_irrefl next)
      · rw [hlending] at hlend
        cases hlend
  · rintro (rfl | ⟨top, rfl, htop⟩)
    · obtain ⟨below, rest, rfl, hlends⟩ := h.exists_lending hstack hkind
      obtain ⟨nearest, -, -, heq⟩ := visibleScopes_of_generator hstack hkind hlends
      rw [heq] at hvisible
      cases hvisible
      exact mem_cons_self
    · obtain ⟨below, rest, hbelow, hlends⟩ := h.exists_lending hstack htop
      obtain ⟨rfl, rfl⟩ := cons.inj hbelow
      obtain ⟨nearest, -, hnearest, heq⟩ := visibleScopes_of_generator hstack htop hlends
      have hne : nearest ≠ g := by
        rintro rfl
        rw [hlending] at hnearest
        cases hnearest
      rw [heq, if_neg (by simp [hne, hempty])] at hvisible
      cases hvisible
      exact mem_cons_of_mem _ mem_cons_self

end State

namespace Check

variable {cfg : Setup} {v : Value} {name : Datum}

theorem current_ok_of_orderly (h : s.Orderly) : ∃ found, current s = .ok found s := by
  obtain ⟨top, outer, hstack⟩ := h.exists_stack
  have htop : top < s.scopes.size := h.stack_based.lt_size h.kindOf_zero (by simp [hstack])
  have hscope : s.scope? top = some s.scopes[top] := Array.getElem?_eq_getElem htop
  exact ⟨(top, s.scopes[top]), by simp [current, hstack, hscope]⟩

theorem lists_of_orderly (h : s.Orderly) (x : Datum) :
    ∃ guarded, (s.guards.headD (.list [])).lists x = .ok guarded := by
  obtain ⟨names, hnames⟩ : ∃ names, s.guards.headD (.list []) = .list names := by
    cases hguards : s.guards with
    | nil => exact ⟨[], rfl⟩
    | cons guard rest => exact h.guards_listed guard (by simp [hguards])
  rw [hnames]
  exact ⟨_, rfl⟩

theorem load_of_knows_unbound (hvisible : s.visibleScopes = .ok visible)
    (hname : v.nameOf? = some name) (hkey : name.key = .ok key)
    (hfind : (visible.find? fun id => (s.binding? id key).isSome) = none)
    (hknows : s.Knows cfg visible key) : load cfg v s = .ok () s := by
  simp only [load, hname, bind_apply, get_apply, hvisible, lift, pure_apply, hkey, hfind]
  cases hknows with
  | bound hid hbound => exact absurd hbound (find?_eq_none.mp hfind _ hid)
  | starred hid hstarred =>
    have hany : visible.any s.isStarred = true := any_eq_true.mpr ⟨_, hid, hstarred⟩
    simp [hany]
  | builtin hbuiltin => simp [hbuiltin]
  | path hpath hpackage => simp [hpath, hpackage]
  | guarded hguard =>
    rw [hguard]
    split
    · rfl
    · split <;> rfl

theorem load_of_knows (h : s.Orderly) (hvisible : s.visibleScopes = .ok visible)
    (hname : v.nameOf? = some name) (hkey : name.key = .ok key) (hknows : s.Knows cfg visible key) :
    ∃ t, load cfg v s = .ok () t ∧ t.messages = s.messages := by
  cases hfind : visible.find? fun id => (s.binding? id key).isSome with
  | some id =>
    obtain ⟨found, hcurrent⟩ := current_ok_of_orderly h
    simp [load, hname, hvisible, hkey, lift, hfind, hcurrent, updateScope, record]
  | none => exact ⟨s, load_of_knows_unbound hvisible hname hkey hfind hknows, rfl⟩

theorem load_of_not_knows (h : s.Orderly) (hvisible : s.visibleScopes = .ok visible)
    (hname : v.nameOf? = some name) (hkey : name.key = .ok key)
    (hknows : ¬ s.Knows cfg visible key) : load cfg v s = report cfg .undefinedName v [name] s := by
  have hfind : (visible.find? fun id => (s.binding? id key).isSome) = none :=
    find?_eq_none.mpr fun id hid hbound => hknows (.bound hid hbound)
  have hany : visible.any s.isStarred = false :=
    any_eq_false.mpr fun id hid hstarred => hknows (.starred hid hstarred)
  have hbuiltin : cfg.isBuiltin key = false :=
    Bool.eq_false_iff.mpr fun hbuiltin => hknows (.builtin hbuiltin)
  have hpath : ¬ (key = .text "__path__" ∧ cfg.isPackageFile = true) :=
    fun h => hknows (.path h.1 h.2)
  have hguard : (s.guards.headD (.list [])).lists (.text "NameError") = .ok false := by
    obtain ⟨guarded, hguard⟩ := lists_of_orderly h (.text "NameError")
    cases guarded with
    | false => exact hguard
    | true => exact absurd (.guarded hguard) hknows
  simp only [load, hname, bind_apply, get_apply, hvisible, lift, pure_apply, hkey, hfind, hany,
    hbuiltin, Bool.or_self, Bool.false_eq_true, if_false, if_neg hpath, hguard, Bool.not_false,
    if_true]

/-- At every moment of a run: the scope of a comprehension is looked at exactly from the
comprehension itself and from a comprehension directly inside it. A name that it binds is not
reported there. From anywhere further in the name is reported exactly if nothing else makes it
known. -/
theorem load_in_comprehension (cfg : Setup) (stop : Moment → State → Bool) (next : Nat) (v : Value)
    (name : Datum) (key : Datum.Key) (hname : v.nameOf? = some name) (hkey : name.key = .ok key)
    (inner : List ScopeId) (g : ScopeId) (outer : List ScopeId)
    (hstack : (reached cfg stop next).stack = inner ++ g :: outer)
    (hkind : (reached cfg stop next).kindOf g = some .generator)
    (hbound : ((reached cfg stop next).binding? g key).isSome = true) :
    let s := reached cfg stop next
    ∃ visible, s.visibleScopes = .ok visible ∧ (g ∈ visible ↔ s.SeesPast inner) ∧
      (s.SeesPast inner ∨ s.Knows cfg visible key →
        ∃ t, load cfg v s = .ok () t ∧ t.messages = s.messages) ∧
      (¬ (s.SeesPast inner ∨ s.Knows cfg visible key) →
        load cfg v s = report cfg .undefinedName v [name] s) := by
  have horderly := orderly_reached cfg stop next
  obtain ⟨visible, hvisible⟩ := horderly.visibleScopes_ok
  have hiff := horderly.mem_visibleScopes_iff hvisible hstack hkind
    (State.isEmptyScope_of_binding hbound)
  refine ⟨visible, hvisible, hiff, ?_, ?_⟩
  · rintro (hsees | hknows)
    · exact load_of_knows horderly hvisible hname hkey (.bound (hiff.mpr hsees) hbound)
    · exact load_of_knows horderly hvisible hname hkey hknows
  · intro hneither
    exact load_of_not_knows horderly hvisible hname hkey fun hknows => hneither (.inr hknows)

end Check

namespace Sample

/-- The node 3 is a load of `x` in a comprehension in a comprehension for `x`. -/
def twofold : Setup :=
  setup [comprehension 1 "x" (comprehension 1 "y" (name 1 "x" "Load"))]

/-- The node 4 is a load of `x` in a function in a comprehension for `x`. -/
def delayed : Setup :=
  setup [comprehension 1 "x" (.node ⟨0, "Lambda", some (.of 1 0), [("args", noParameters),
    ("body", name 1 "x" "Load")]⟩)]

end Sample

namespace Check

open Sample

/-- The name of the outer comprehension is found in the inner one. -/
theorem load_in_comprehension_twofold :
    (reached twofold (atNode 3) twofold.root.size).stack = [2] ++ 1 :: [0] ∧
      ((reached twofold (atNode 3) twofold.root.size).binding? 1 (.text "x")).isSome = true ∧
      ∃ t, load twofold (name 1 "x" "Load") (reached twofold (atNode 3) twofold.root.size) =
          .ok () t ∧
        t.messages = (reached twofold (atNode 3) twofold.root.size).messages := by
  have hstack : (reached twofold (atNode 3) twofold.root.size).stack = [2] ++ 1 :: [0] := by
    decide +kernel
  have hbound : ((reached twofold (atNode 3) twofold.root.size).binding? 1
      (.text "x")).isSome = true := by decide +kernel
  have hsees : (reached twofold (atNode 3) twofold.root.size).SeesPast [2] :=
    .inr ⟨2, rfl, by decide +kernel⟩
  obtain ⟨visible, -, -, hsilent, -⟩ := load_in_comprehension twofold (atNode 3) twofold.root.size
    (name 1 "x" "Load") (.text "x") (.text "x") rfl rfl [2] 1 [0] hstack (by decide +kernel) hbound
  exact ⟨hstack, hbound, hsilent (.inl hsees)⟩

/-- In a function in a comprehension, a name that the comprehension binds is reported. -/
theorem load_in_function_in_comprehension :
    (reached delayed (atNode 4) delayed.root.size).stack = [2, 1, 0] ∧
      (reached delayed (atNode 4) delayed.root.size).kindOf 1 = some .generator ∧
      ((reached delayed (atNode 4) delayed.root.size).binding? 1 (.text "x")).isSome = true ∧
      (final delayed).messages.toList.map (·.text) = ["(none):1: undefined name 'x'"] := by
  decide +kernel

end Check

end ScopeLint
