import ScopeLint.Proofs.Checker.Course

/-! # The record of a check

The events on record tell what each scope holds: loads mark a binding as used, statements bind and
delete names. A record is sound if every binding on it is one that its statement makes of what was
there before, and if nothing was hidden or refused without a word. -/
namespace ScopeLint

open List

namespace Scope

variable (key other : Datum.Key) {s : Scope}

def keys (s : Scope) : List Datum.Key := s.entries.map (·.key)

theorem has_iff_mem_keys : s.has key = true ↔ key ∈ s.keys := by
  simp [has, find?, keys, find?_isSome]

/-- The bindings of one key are changed. -/
private theorem find?_map_entries (f : Binding → Binding) :
    ((s.entries.map fun e => if e.key == key then { e with binding := f e.binding } else e).find?
      (·.key == other)).map (·.binding) =
      if other = key then (s.find? key).map f else s.find? other := by
  have hsame : ((·.key == other) ∘ fun e : Entry =>
      if e.key == key then { e with binding := f e.binding } else e) = (·.key == other) := by
    funext e
    dsimp only [Function.comp]
    split <;> rfl
  rw [List.find?_map, hsame]
  unfold find?
  split
  · rename_i heq
    subst heq
    cases hfind : s.entries.find? (·.key == other) with
    | none => rfl
    | some e => simp [show e.key = other by simpa using find?_some hfind]
  · rename_i hne
    cases hfind : s.entries.find? (·.key == other) with
    | none => rfl
    | some e => simp [show e.key = other by simpa using find?_some hfind, hne]

theorem find?_insert (b : Binding) :
    (s.insert key b).find? other = if other = key then some b else s.find? other := by
  unfold insert
  split
  · rename_i hhas
    obtain ⟨o, ho⟩ := Option.isSome_iff_exists.mp hhas
    refine (find?_map_entries key other fun _ => b).trans ?_
    rw [ho, Option.map_some]
  · rename_i hhas
    have hnone : s.entries.find? (·.key == key) = none := by
      simpa [has, find?] using hhas
    unfold find?
    rw [find?_append]
    split
    · rename_i heq
      subst heq
      simp [hnone]
    · rename_i hne
      simp [Ne.symm hne]

theorem find?_erase : (s.erase key).find? other = if other = key then none else s.find? other := by
  unfold erase find?
  dsimp only
  rw [find?_filter]
  split
  · rename_i heq
    subst heq
    simp
  · rename_i hne
    congr 2
    funext e
    by_cases hkey : e.key = other
    · simp [hkey, hne]
    · simp [hkey]

theorem find?_markUsed (use : Use) : (s.markUsed key use).find? other =
      if other = key then (s.find? key).map ({ · with used := some use }) else s.find? other :=
  find?_map_entries key other ({ · with used := some use })

theorem nodup_keys_insert (h : s.keys.Nodup) (b : Binding) : (s.insert key b).keys.Nodup := by
  unfold insert keys
  dsimp only
  split
  · rw [map_map]
    have hkey : (fun e : Entry => e.key) ∘
        (fun e : Entry => if e.key == key then { e with binding := b } else e) = (·.key) := by
      funext e
      dsimp only [Function.comp]
      split <;> rfl
    rwa [hkey]
  · rename_i hhas
    rw [has_iff_mem_keys] at hhas
    rw [map_append]
    refine nodup_append.mpr ⟨h, by simp, ?_⟩
    intro k hk k' hk'
    obtain rfl : k' = key := by simpa using hk'
    rintro rfl
    exact hhas hk

theorem nodup_keys_erase (h : s.keys.Nodup) : (s.erase key).keys.Nodup :=
  h.sublist (filter_sublist.map _)

theorem keys_markUsed (use : Use) : (s.markUsed key use).keys = s.keys := by
  unfold markUsed keys
  dsimp only
  rw [map_map]
  congr 1
  funext e
  dsimp only [Function.comp]
  split <;> rfl

end Scope

namespace State

def keysOf (s : State) (id : ScopeId) : List Datum.Key := (s.entriesOf id).map (·.key)

theorem binding?_eq (s : State) (id : ScopeId) (key : Datum.Key) :
    s.binding? id key = ((s.entriesOf id).find? (·.key == key)).map (·.binding) := by
  unfold binding? entriesOf
  cases s.scope? id with
  | none => rfl
  | some scope => rfl

theorem binding?_congr {s t : State} {id : ScopeId} (h : t.entriesOf id = s.entriesOf id)
    (key : Datum.Key) : t.binding? id key = s.binding? id key := by
  rw [binding?_eq, binding?_eq, h]

def withUse (s : State) (id : ScopeId) (key : Datum.Key) (use : Use) : State :=
  { s with
    scopes := s.scopes.modify id (·.markUsed key use)
    history := .loaded id key use :: s.history }

def withBinding (s : State) (id : ScopeId) (key : Datum.Key) (n : Node) (b : Binding) : State :=
  { s with
    scopes := s.scopes.modify id (·.insert key b)
    history := .bound id key n b :: s.history }

def withRefusal (s : State) (id : ScopeId) (key : Datum.Key) (n : Node) (b : Binding) : State :=
  { s with history := .refused id key n b :: s.history }

def withoutBinding (s : State) (id : ScopeId) (key : Datum.Key) : State :=
  { s with
    scopes := s.scopes.modify id (·.erase key)
    history := .deleted id key :: s.history }

section Modified

variable {s t : State} {id : ScopeId} {f : Scope → Scope}

theorem keys_of_scope? {scope : Scope} (h : s.scope? id = some scope) :
    s.keysOf id = scope.keys := by
  simp [keysOf, entriesOf, h, Scope.keys]

variable (h : t.scopes = s.scopes.modify id f)

include h

theorem scope?_modified (other : ScopeId) :
    t.scope? other = if other = id then (s.scope? id).map f else s.scope? other := by
  simp only [scope?, h, Array.getElem?_modify]
  split
  · rename_i heq
    subst heq
    simp
  · rename_i hne
    simp [Ne.symm hne]

theorem kindOf_modified (hf : ∀ scope, (f scope).kind = scope.kind) (other : ScopeId) :
    t.kindOf other = s.kindOf other := by
  simp only [kindOf, scope?_modified h]
  split
  · rename_i heq
    subst heq
    cases s.scope? other with
    | none => rfl
    | some scope => simp [hf]
  · rfl

theorem binding?_modified (other : ScopeId) (key : Datum.Key) : t.binding? other key =
      if other = id then (s.scope? id).bind fun scope => (f scope).find? key
      else s.binding? other key := by
  rw [binding?, scope?_modified h]
  split
  · cases s.scope? id <;> rfl
  · rfl

theorem keysOf_modified (other : ScopeId) : t.keysOf other =
      if other = id then ((s.scope? id).map fun scope => (f scope).keys).getD []
      else s.keysOf other := by
  rw [keysOf, entriesOf, scope?_modified h]
  split
  · cases s.scope? id <;> rfl
  · rfl

theorem nodup_keysOf_modified (hf : ∀ scope, scope.keys.Nodup → (f scope).keys.Nodup)
    (hs : ∀ other, (s.keysOf other).Nodup) (other : ScopeId) : (t.keysOf other).Nodup := by
  rw [keysOf_modified h]
  split
  · cases hscope : s.scope? id with
    | none => simp
    | some scope =>
      have hkeys := hs id
      rw [keys_of_scope? hscope] at hkeys
      exact hf scope hkeys
  · exact hs other

end Modified

/-- A scope is changed at one key. -/
theorem binding?_modified_at {s t : State} {id : ScopeId} {f : Scope → Scope} {key : Datum.Key}
    {g : Option Binding → Option Binding} (h : t.scopes = s.scopes.modify id f) (hg : g none = none)
    (hf : ∀ scope k, (f scope).find? k = if k = key then g (scope.find? key) else scope.find? k)
    (other : ScopeId) (k : Datum.Key) : t.binding? other k =
      if other = id ∧ k = key then g (s.binding? id key) else s.binding? other k := by
  rw [binding?_modified h]
  by_cases hid : other = id
  · subst hid
    unfold binding?
    cases s.scope? other with
    | none => simp [hg]
    | some scope => simp [hf]
  · simp [hid]

theorem binding?_withUse (s : State) (id other : ScopeId) (key k : Datum.Key) (use : Use) :
    (s.withUse id key use).binding? other k =
      if other = id ∧ k = key then (s.binding? id key).map ({ · with used := some use })
      else s.binding? other k :=
  binding?_modified_at rfl rfl (fun scope k => scope.find?_markUsed key k use) other k

theorem binding?_withBinding {s : State} {id : ScopeId} (hid : (s.scope? id).isSome = true)
    (other : ScopeId) (key k : Datum.Key) (n : Node) (b : Binding) :
    (s.withBinding id key n b).binding? other k =
      if other = id ∧ k = key then some b else s.binding? other k := by
  obtain ⟨scope, hscope⟩ := Option.isSome_iff_exists.mp hid
  have hscopes : (s.withBinding id key n b).scopes = s.scopes.modify id (·.insert key b) := rfl
  rw [binding?_modified hscopes]
  by_cases hid : other = id
  · subst hid
    simp [hscope, Scope.find?_insert, binding?]
  · simp [hid]

theorem binding?_withoutBinding (s : State) (id other : ScopeId) (key k : Datum.Key) :
    (s.withoutBinding id key).binding? other k =
      if other = id ∧ k = key then none else s.binding? other k :=
  binding?_modified_at (g := fun _ => none) rfl rfl (fun scope k => scope.find?_erase key k) other k

end State

namespace Event

/-- What an event makes of the binding of `key` in the scope `id`. -/
def after (id : ScopeId) (key : Datum.Key) (old : Option Binding) : Event → Option Binding
  | .loaded i k use => if id = i ∧ key = k then old.map ({ · with used := some use }) else old
  | .bound i k _ b => if id = i ∧ key = k then some b else old
  | .deleted i k => if id = i ∧ key = k then none else old
  | .refused _ _ _ _ | .compared _ _ _ | .body _ _ | .reported _ _ => old

def isNote : Event → Bool
  | .compared _ _ _ | .reported _ _ => true
  | _ => false

theorem IsNote.isNote {kinds : List Kind} {e : Event} (h : e.IsNote kinds) : e.isNote = true := by
  cases e with
  | compared | reported => rfl
  | _ => exact h.elim

end Event

variable {n m : Node} {old : Option Binding} {name : Datum} {id : ScopeId}

/-- What the scope `id` holds under `key` after the events, latest first. -/
def replayed (id : ScopeId) (key : Datum.Key) : List Event → Option Binding
  | [] => none
  | e :: earlier => e.after id key (replayed id key earlier)

theorem replayed_notes {key : Datum.Key} {es h : List Event}
    (hes : ∀ e ∈ es, e.isNote = true) : replayed id key (es ++ h) = replayed id key h := by
  induction es with
  | nil => rfl
  | cons e rest ih =>
    have hrest := ih fun a ha => hes a (mem_cons_of_mem _ ha)
    have hnote := hes e mem_cons_self
    cases e with
    | compared | reported => exact hrest
    | _ => cases hnote

def notesOf (earlier : List Event) : List Event := earlier.takeWhile (·.isNote)

theorem subset_notesOf {es h : List Event} (hes : ∀ e ∈ es, e.isNote = true) :
    es ⊆ notesOf (es ++ h) := by
  unfold notesOf
  rw [takeWhile_append_of_pos hes]
  exact subset_append_left _ _

/-- The node as the subject or argument of a diagnostic. -/
def Datum.IsOf (n : Node) (d : Datum) : Prop := ∃ place, d = .object n.kind (some n.id) place

/-- It has been said that the name is bound at `n` while what `m` binds to it is unused. -/
def ToldOf (notes : List Event) (n m : Node) (name : Datum) : Prop :=
  ∃ d d', .reported .redefinedWhileUnused [d, name, d'] ∈ notes ∧ d.IsOf n ∧ d'.IsOf m

/-- The kinds of bindings that stores make. They are used if what was there before was. -/
def BindingKind.isStored : BindingKind → Bool
  | .plain | .assignment | .exported => true
  | _ => false

/-- What is bound at `n` where `old` has been so far. -/
inductive Binding.MadeAt (n : Node) (old : Option Binding) : Binding → Prop where
  | stated {b} : b.StatedBy n → MadeAt n old b
  | parameter (name : Datum) : (∀ o, old = some o → o.isUnusedImport = false) →
      MadeAt n old (.fresh name .argument (.node n))
  | stored (name : Datum) (kind : BindingKind) (source : Value) : kind.isStored = true →
      MadeAt n old ⟨name, kind, source, old.bind (·.used)⟩

theorem ToldOf.mono {es notes : List Event} (h : ToldOf es n m name)
    (hsub : es ⊆ notes) : ToldOf notes n m name := by
  obtain ⟨d, d', hmem, hd, hd'⟩ := h
  exact ⟨d, d', hsub hmem, hd, hd'⟩

/-- It has been said so, or the two were found on branches that exclude each other. -/
def AccountedFor (notes : List Event) (n m : Node) (name : Datum) : Prop :=
  .compared n m true ∈ notes ∨ ToldOf notes n m name

theorem AccountedFor.mono {es notes : List Event} (h : AccountedFor es n m name)
    (hsub : es ⊆ notes) : AccountedFor notes n m name :=
  h.imp (fun hapart => hsub hapart) fun htold => htold.mono hsub

/-- An unused import that is replaced is accounted for, unless there is no need: it is in the scope
of a class, or the new binding imports something else. -/
def HidesOpenly (s : State) (id : ScopeId) (old : Option Binding) (notes : List Event) (n : Node)
    (b : Binding) : Prop :=
  ∀ o m, old = some o → o.isUnusedImport = true → o.source = .node m →
    s.kindOf id = some .classBody ∨ Check.hides b o = false ∨ AccountedFor notes n m b.name

/-- The binding gives way to an unused definition on the same branch, and this has been reported. -/
def RefusedOpenly (old : Option Binding) (notes : List Event) (n : Node) (b : Binding) : Prop :=
  ∃ o, old = some o ∧ o.isUnusedDefinition = true ∧
    ∀ m, o.source = .node m → .compared n m false ∈ notes ∧ ToldOf notes n m b.name

theorem HidesOpenly.mono {s t : State} {es notes : List Event}
    {b : Binding} (h : HidesOpenly s id old es n b) (hsub : es ⊆ notes)
    (hkind : ∀ kind, s.kindOf id = some kind → t.kindOf id = some kind) :
    HidesOpenly t id old notes n b := by
  intro o m ho hunused hsource
  rcases h o m ho hunused hsource with hclass | hhides | haccounted
  · exact .inl (hkind _ hclass)
  · exact .inr (.inl hhides)
  · exact .inr (.inr (haccounted.mono hsub))

theorem RefusedOpenly.mono {es notes : List Event} {b : Binding}
    (h : RefusedOpenly old es n b) (hsub : es ⊆ notes) : RefusedOpenly old notes n b := by
  obtain ⟨o, ho, hunused, hnotes⟩ := h
  refine ⟨o, ho, hunused, fun m hm => ?_⟩
  obtain ⟨hcompared, htold⟩ := hnotes m hm
  exact ⟨hsub hcompared, htold.mono hsub⟩

/-- Whether an event is one that can come after the earlier ones. -/
def Event.Sound (s : State) (earlier : List Event) : Event → Prop
  | .bound id key n b =>
    b.MadeAt n (replayed id key earlier) ∧
      HidesOpenly s id (replayed id key earlier) (notesOf earlier) n b
  | .refused id key n b => RefusedOpenly (replayed id key earlier) (notesOf earlier) n b
  | _ => True

/-- A record on which every event is sound, where `s` knows the kinds of the scopes. -/
def Chronicle (s : State) : List Event → Prop
  | [] => True
  | e :: earlier => e.Sound s earlier ∧ Chronicle s earlier

namespace Chronicle

variable {s t : State} {h later earlier es : List Event} {e : Event}

theorem sound (hc : Chronicle s (later ++ e :: earlier)) : e.Sound s earlier := by
  induction later with
  | nil => exact hc.1
  | cons e' rest ih => exact ih hc.2

theorem suffix (hc : Chronicle s (later ++ earlier)) : Chronicle s earlier := by
  induction later with
  | nil => exact hc
  | cons e' rest ih => exact ih hc.2

theorem notes (hc : Chronicle s h) (hes : ∀ e ∈ es, e.isNote = true) : Chronicle s (es ++ h) := by
  induction es with
  | nil => exact hc
  | cons e rest ih =>
    refine ⟨?_, ih fun a ha => hes a (mem_cons_of_mem _ ha)⟩
    have hnote := hes e mem_cons_self
    cases e with
    | compared | reported => trivial
    | _ => cases hnote

theorem mono (hc : Chronicle s h)
    (hkind : ∀ id kind, s.kindOf id = some kind → t.kindOf id = some kind) : Chronicle t h := by
  induction h with
  | nil => trivial
  | cons e earlier ih =>
    obtain ⟨hsound, hc⟩ := hc
    refine ⟨?_, ih hc⟩
    cases e with
    | bound id key n b =>
      exact ⟨hsound.1, hsound.2.mono (List.Subset.refl _) (hkind id)⟩
    | refused id key n b => exact hsound
    | _ => trivial

end Chronicle

/-- What the scopes hold is what the record tells, and the record is sound. -/
structure State.Recorded (s : State) : Prop where
  keys_nodup : ∀ id, (s.keysOf id).Nodup
  binding?_eq : ∀ id key, s.binding? id key = replayed id key s.history
  chronicle : Chronicle s s.history

namespace Event

/-- Whether what has been bound to the name in the scope goes with the event. -/
def ousts (id : ScopeId) (key : Datum.Key) : Event → Bool
  | .bound i k _ _ | .deleted i k => decide (i = id ∧ k = key)
  | _ => false

/-- The use that the event makes of the name, if it is a load that found it. -/
def useOf? (id : ScopeId) (key : Datum.Key) : Event → Option Use
  | .loaded i k use => if id = i ∧ key = k then some use else none
  | _ => none

end Event

/-- What the record `h` has of the name in the scope: it was bound to `b` at `n`, and in the `later`
events it was neither bound again nor deleted. -/
structure InForce (h : List Event) (id : ScopeId) (key : Datum.Key) (later : List Event) (n : Node)
    (b : Binding) (earlier : List Event) : Prop where
  split : h = later ++ .bound id key n b :: earlier
  stays : ∀ e ∈ later, e.ousts id key = false

section Force

variable {b : Binding} {h later earlier es : List Event}

theorem exists_inForce (hb : replayed id key h = some b) :
    ∃ later n b₀ earlier, InForce h id key later n b₀ earlier := by
  induction h generalizing b with
  | nil => cases hb
  | cons e h ih =>
    -- an event that leaves the name bound as it was, up to its flag
    have hpass (hstay : e.ousts id key = false) (hsome : ∃ o, replayed id key h = some o) :
        ∃ later n b₀ earlier, InForce (e :: h) id key later n b₀ earlier := by
      obtain ⟨o, ho⟩ := hsome
      obtain ⟨later, n, b₀, earlier, hsplit, hstays⟩ := ih ho
      exact ⟨e :: later, n, b₀, earlier, by rw [hsplit, cons_append],
        forall_mem_cons.mpr ⟨hstay, hstays⟩⟩
    cases e with
    | loaded i k use =>
      refine hpass rfl ?_
      simp only [replayed, Event.after] at hb
      split at hb
      · obtain ⟨o, ho, -⟩ := Option.map_eq_some_iff.mp hb
        exact ⟨o, ho⟩
      · exact ⟨b, hb⟩
    | bound i k n b₁ =>
      by_cases hhere : id = i ∧ key = k
      · obtain ⟨rfl, rfl⟩ := hhere
        exact ⟨[], n, b₁, h, rfl, by simp⟩
      · refine hpass ?_ ⟨b, by simpa [replayed, Event.after, hhere] using hb⟩
        simp only [Event.ousts, decide_eq_false_iff_not]
        exact fun hsame => hhere ⟨hsame.1.symm, hsame.2.symm⟩
    | deleted i k =>
      by_cases hhere : id = i ∧ key = k
      · simp [replayed, Event.after, hhere] at hb
      · refine hpass ?_ ⟨b, by simpa [replayed, Event.after, hhere] using hb⟩
        simp only [Event.ousts, decide_eq_false_iff_not]
        exact fun hsame => hhere ⟨hsame.1.symm, hsame.2.symm⟩
    | refused | compared | body | reported => exact hpass rfl ⟨b, hb⟩

/-- While a binding stays, only its flag changes. -/
theorem InForce.replayed_eq (hin : InForce h id key later n b earlier) : replayed id key h =
      some { b with used := (later.findSome? (Event.useOf? id key)).or b.used } := by
  obtain ⟨rfl, hstays⟩ := hin
  induction later with
  | nil => simp [replayed, Event.after]
  | cons e later ih =>
    obtain ⟨he, hstays⟩ := forall_mem_cons.mp hstays
    rw [cons_append, replayed, ih hstays]
    cases e with
    | loaded i k use =>
      by_cases hhere : id = i ∧ key = k
      · simp [Event.after, Event.useOf?, hhere]
      · simp [Event.after, Event.useOf?, hhere]
    | bound i k | deleted i k =>
      have hother : ¬ (id = i ∧ key = k) := by
        rintro ⟨rfl, rfl⟩
        simp [Event.ousts] at he
      simp [Event.after, Event.useOf?, findSome?_cons, hother]
    | refused | compared | body | reported => rfl

theorem findSome?_useOf?_eq_none :
    es.findSome? (Event.useOf? id key) = none ↔ ∀ use, .loaded id key use ∉ es := by
  rw [findSome?_eq_none_iff]
  constructor
  · intro hnone use hmem
    simpa [Event.useOf?] using hnone _ hmem
  · intro hnone e he
    cases e with
    | loaded i k use =>
      by_cases hhere : id = i ∧ key = k
      · obtain ⟨rfl, rfl⟩ := hhere
        exact absurd he (hnone use)
      · simp [Event.useOf?, hhere]
    | _ => rfl

end Force

end ScopeLint
