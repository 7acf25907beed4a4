import ScopeLint.Proofs.Checker.Itinerary
import ScopeLint.Proofs.Checker.NameReports

/-! # Uses of names around a function

While the body of a function is gone through, the scopes around it keep their names. So of the scopes
around it at most one has a binding that is marked as used in the function itself. It is the nearest
scope that has the name, and the load that has marked it is on record, after the binding that it has
found. -/
namespace ScopeLint

open List Check

variable {cfg : Setup} {s t u o : State} {id : ScopeId} {key : Datum.Key} {use : Use} {b : Binding}
  {n : Node} {q : Queue} {words : List Datum → Prop}

namespace State

/-- Whether the stack is in use, or saved with a task that was put off. -/
def Retains (s : State) (stack : List ScopeId) : Prop :=
  stack = s.stack ∨ ∃ q i d, s.Entry q i d ∧ d.stack = stack

/-- Since `o`, stacks have only been built on the one that was in use there, and no scope of a
function has been opened. -/
structure Nested (o t : State) : Prop where
  stack : o.Carries t.stack
  saved : ∀ q i d, t.Entry q i d → o.Entry q i d ∨ o.Carries d.stack
  function : ∀ id, t.kindOf id = some .function → o.kindOf id = some .function
  size_le : o.scopes.size ≤ t.scopes.size

namespace Nested

theorem refl (o : State) : o.Nested o :=
  ⟨o.carries_stack, fun _ _ _ => .inl, fun _ => id, Nat.le_refl _⟩

theorem closed (h : o.Nested t) (hs : o.Nested s) (top : ScopeId) :
    o.Nested (t.closed top s.stack) :=
  ⟨hs.stack, fun q i d hd => h.saved q i d (by cases q <;> exact hd), h.function, h.size_le⟩

variable (h : o.Nested s)

include h

theorem of_eq (hsize : t.scopes.size = s.scopes.size)
    (hkind : ∀ id, t.kindOf id = s.kindOf id) (hstack : t.stack = s.stack)
    (hqueue : ∀ q, t.queue q = s.queue q) : o.Nested t where
  stack := hstack ▸ h.stack
  saved := fun q i d hd => h.saved q i d (by rwa [Entry, ← hqueue q])
  function := fun id hid => h.function id (hkind id ▸ hid)
  size_le := hsize ▸ h.size_le

theorem alike (ha : s.Alike t) : o.Nested t :=
  h.of_eq ha.size_eq ha.kindOf_eq ha.stack_eq ha.queue_eq

/-- Nothing but the scopes, the stack and the queues counts. -/
theorem reset (hscopes : t.scopes = s.scopes) (hstack : t.stack = s.stack)
    (hfunctions : t.functions = s.functions) (hassignments : t.assignments = s.assignments) :
    o.Nested t := by
  refine h.of_eq (by rw [hscopes]) (fun id => by rw [kindOf, scope?, hscopes]; rfl) hstack ?_
  intro q
  cases q with
  | functions => exact hfunctions
  | assignments => exact hassignments

theorem opened {kind : ScopeKind} (hkind : kind ≠ .function) : o.Nested (s.opened kind) where
  stack := by
    obtain ⟨inner, hstack, hinner⟩ := h.stack
    refine ⟨s.scopes.size :: inner, congrArg (_ :: ·) hstack, ?_⟩
    exact forall_mem_cons.mpr ⟨h.size_le, hinner⟩
  saved := fun q i d hd => h.saved q i d (by cases q <;> exact hd)
  function := by
    intro id hid
    rcases Nat.lt_trichotomy id s.scopes.size with hlt | rfl | hlt
    · exact h.function id (kindOf_opened_of_lt s kind hlt ▸ hid)
    · rw [kindOf_opened_size] at hid
      exact absurd (Option.some.inj hid) hkind
    · have hsize : id < s.scopes.size + 1 := by simpa [State.opened] using lt_size_of_kindOf hid
      exact absurd (Nat.le_of_lt_succ hsize) (Nat.not_le.mpr hlt)
  size_le := Nat.le_trans h.size_le (grows_opened s kind).size_le

theorem withTask {entries : Array Deferred} (hq : s.queue .functions = some entries) (task : Task) :
    o.Nested (s.withTask .functions entries task) where
  stack := h.stack
  saved := by
    intro q i d hd
    rcases (entry_withTask hq).mp hd with hd | ⟨-, -, rfl⟩
    · exact h.saved q i d hd
    · exact .inr h.stack
  function := h.function
  size_le := h.size_le

end Nested

end State

section Nesting

variable {vs : List Value}

theorem Course.nested (h : Course cfg n vs s t) : o.Nested s → o.Nested t := by
  refine h.induces (R := fun s t => o.Nested s → o.Nested t) (fun _ hs => hs)
    (fun h k hs => k (h hs)) (fun h hs => hs.alike h) (fun hkind _ h hs => ?_) (fun h hs => ?_)
    (fun _ hq hs => hs.withTask hq _) (fun _ _ h hs => ?_)
  · exact (h (hs.opened hkind.2)).closed hs _
  all_goals exact (h (hs.reset rfl rfl rfl rfl)).reset rfl rfl rfl rfl

theorem Cut.nested (h : Cut cfg n vs s t) (hs : o.Nested s) : o.Nested t := by
  induction h with
  | here => exact hs
  | next hc _ ih => exact ih (hc.nested hs)
  | act a _ h => exact hs.alike ((a.run_mild cfg).fail h)
  | scope kind hkind _ ih => exact ih (hs.opened hkind.2)
  | guard names _ ih => exact ih (hs.reset rfl rfl rfl rfl)
  | entry m _ he => exact hs.alike (enterNode_eq_error he).toAlike
  | node m _ he _ ih =>
    obtain ⟨r, hr, rfl⟩ := enterNode_eq_ok he
    exact (ih ((hs.alike hr.toAlike).reset rfl rfl rfl rfl)).reset rfl rfl rfl rfl
  | stray v _ _ _ hr =>
    obtain ⟨u, hu, rfl | rfl⟩ := refuse_eq_error hr
    · exact hs.alike hu.toAlike
    · exact (hs.alike hu.toAlike).reset rfl rfl rfl rfl

theorem Examples.nested (h : Examples cfg s t) : o.Nested s → o.Nested t :=
  h.induces (R := fun s t => o.Nested s → o.Nested t) (fun _ hs => hs) (fun h k hs => k (h hs))
    (fun h hs => hs.alike h.alike) (fun _ _ _ hs => hs.reset rfl rfl rfl rfl) Course.nested
    fun _ _ hs => hs.reset rfl rfl rfl rfl

theorem ExamplesCut.nested (h : ExamplesCut cfg s t) (hs : o.Nested s) : o.Nested t := by
  induction h with
  | here => exact hs
  | next h _ ih => exact ih (h.nested hs)
  | speech h => exact hs.alike h.alike
  | tree tree shift h => exact h.nested (hs.reset rfl rfl rfl rfl)

end Nesting

namespace State

/-- The load is on record, and the binding is the one that it has found, but for the mark. -/
def Found (s : State) (id : ScopeId) (key : Datum.Key) (use : Use) (b : Binding) : Prop :=
  ∃ later earlier old, s.history = later ++ .loaded id key use :: earlier ∧
    replayed id key earlier = some old ∧ b = { old with used := some use }

theorem Found.mono (h : s.Found id key use b) (hes : ∃ es, t.history = es ++ s.history) :
    t.Found id key use b := by
  obtain ⟨later, earlier, old, hhistory, hold, rfl⟩ := h
  obtain ⟨es, hes⟩ := hes
  exact ⟨es ++ later, earlier, old, by rw [hes, hhistory, append_assoc], hold, rfl⟩

/-- Whatever is marked as used was used in a scope that is there. -/
def KnowsUses (s : State) : Prop :=
  ∀ id key b use, s.binding? id key = some b → b.used = some use →
    ∃ kind, s.kindOf use.scope = some kind

end State

section Moving

variable {on : List ScopeId → Prop}

theorem Move.kindOf_some (h : Move on s t) {kind : ScopeKind} (hid : s.kindOf id = some kind) :
    t.kindOf id = some kind := by
  cases h with
  | keep h => exact h.kindOf_some id kind hid
  | load _ key use _ _ =>
    exact (State.kindOf_modified (f := (·.markUsed key use)) rfl (fun _ => rfl) id).trans hid
  | bind _ key _ b _ _ hspeech _ _ _ _ =>
    rw [State.kindOf_modified (f := (·.insert key b)) rfl fun _ => rfl, hspeech.alike.kindOf_eq]
    exact hid
  | refuse _ _ _ _ hspeech _ _ => exact (hspeech.alike.kindOf_eq id).trans hid
  | delete _ key _ =>
    exact (State.kindOf_modified (f := (·.erase key)) rfl (fun _ => rfl) id).trans hid

theorem Move.knowsUses (h : Move on s t) (hs : s.KnowsUses) : t.KnowsUses := by
  intro id key b use hb huse
  suffices hknown : ∃ kind, s.kindOf use.scope = some kind from hknown.imp fun _ => h.kindOf_some
  cases h with
  | keep h => exact hs id key b use (State.binding?_congr (h.entriesOf_eq id) key ▸ hb) huse
  | load _ _ _ _ hhits =>
    rw [State.binding?_withUse] at hb
    split at hb
    · obtain ⟨_, -, rfl⟩ := Option.map_eq_some_iff.mp hb
      cases huse
      exact hhits.kind
    · exact hs id key b use hb huse
  | bind top _ _ _ _ hscope hspeech _ _ hused _ =>
    rw [State.binding?_withBinding (by rwa [State.scope?, hspeech.scopes_eq])] at hb
    split at hb
    · cases hb
      rcases hused use huse with rfl | hold
      · obtain ⟨scope, hscope⟩ := Option.isSome_iff_exists.mp hscope
        exact ⟨scope.kind, by simp [State.kindOf, hscope]⟩
      · obtain ⟨old, hold, hused⟩ := Option.bind_eq_some_iff.mp hold
        exact hs _ _ old use hold hused
    · exact hs id key b use (hspeech.binding?_eq id key ▸ hb) huse
  | refuse _ _ _ _ hspeech _ _ => exact hs id key b use (hspeech.binding?_eq id key ▸ hb) huse
  | delete _ _ _ =>
    rw [State.binding?_withoutBinding] at hb
    split at hb
    · cases hb
    · exact hs id key b use hb huse

theorem Moves.knowsUses (h : Moves on s t) (hs : s.KnowsUses) : t.KnowsUses := by
  induction h with
  | refl => exact hs
  | tail _ h ih => exact h.knowsUses ih

end Moving

/-- What becomes of the scopes of `s` while a body is gone through in a new scope on top of its
stack. They keep their names, and a use in the new scope is one of the nearest of them. -/
structure State.Around (s t : State) : Prop where
  kindOf_some : ∀ id kind, (s.opened .function).kindOf id = some kind → t.kindOf id = some kind
  history : ∃ es, t.history = es ++ s.history
  binds_eq : ∀ id < s.scopes.size, ∀ key, t.binds key id = s.binds key id
  used : ∀ id < s.scopes.size, ∀ key b use, t.binding? id key = some b → b.used = some use →
    s.binding? id key = some b ∨ s.scopes.size < use.scope ∨
      (use.scope = s.scopes.size ∧
        (s.stack.filter s.isLending).find? (s.binds key) = some id ∧ t.Found id key use b)

namespace State.Around

variable (h : s.Around t)

include h

theorem kindOf_eq (hid : id < s.scopes.size) : t.kindOf id = s.kindOf id := by
  obtain ⟨kind, hkind⟩ : ∃ kind, s.kindOf id = some kind :=
    ⟨s.scopes[id].kind, by simp [kindOf, scope?, hid]⟩
  rw [hkind]
  exact h.kindOf_some id kind ((kindOf_opened_of_lt s .function hid).trans hkind)

/-- The nearest of the scopes around is the same throughout. -/
theorem find?_eq {outer : List ScopeId} (houter : ∀ id ∈ outer, id < s.scopes.size)
    (key : Datum.Key) : (outer.filter t.isLending).find? (t.binds key) =
      (outer.filter s.isLending).find? (s.binds key) := by
  rw [find?_filter, find?_filter, ← head?_filter, ← head?_filter]
  refine congrArg _ (filter_congr fun id hid => ?_)
  rw [h.binds_eq id (houter id hid), isLending, h.kindOf_eq (houter id hid)]
  rfl

theorem step (hkind : ∀ id kind, t.kindOf id = some kind → u.kindOf id = some kind)
    (hbinding : ∀ id < s.scopes.size, ∀ key, u.binding? id key = t.binding? id key)
    (hes : ∃ es, u.history = es ++ t.history) : s.Around u where
  kindOf_some := fun id kind hid => hkind id kind (h.kindOf_some id kind hid)
  history := by
    obtain ⟨es, hes⟩ := hes
    obtain ⟨more, hmore⟩ := h.history
    exact ⟨es ++ more, by rw [hes, hmore, append_assoc]⟩
  binds_eq := fun id hid key => by rw [binds, hbinding id hid]; exact h.binds_eq id hid key
  used := by
    intro id hid key b use hb huse
    rw [hbinding id hid] at hb
    refine (h.used id hid key b use hb huse).imp_right (Or.imp_right ?_)
    rintro ⟨hscope, hnearest, hfound⟩
    exact ⟨hscope, hnearest, hfound.mono hes⟩

theorem nearest_of_hits (hhits : t.Hits id key use) (hstack : ∀ id ∈ s.stack, id < s.scopes.size)
    (htop : t.stack = s.scopes.size :: s.stack) (hid : id < s.scopes.size) :
    use.scope = s.scopes.size ∧ (s.stack.filter s.isLending).find? (s.binds key) = some id := by
  obtain ⟨rest, hrest⟩ := hhits.top
  obtain ⟨hscope, -⟩ := cons.inj (htop.symm.trans hrest)
  refine ⟨hscope.symm, ?_⟩
  have hkind := h.kindOf_some _ _ (kindOf_opened_size s .function)
  obtain ⟨visible, hvisible, hfind⟩ := hhits.found
  rw [visibleScopes_of_ne_generator htop (by simp [hkind])] at hvisible
  cases hvisible
  rw [← h.find?_eq hstack]
  rw [find?_cons] at hfind
  split at hfind
  · cases hfind
    exact absurd hid (Nat.lt_irrefl _)
  · exact hfind

theorem move (ht : t.Recorded) (hstack : ∀ id ∈ s.stack, id < s.scopes.size)
    (hmove : Move (s.opened .function).Carries t u) : s.Around u := by
  have hkind (id : ScopeId) (kind : ScopeKind) : t.kindOf id = some kind → u.kindOf id = some kind :=
    hmove.kindOf_some
  cases hmove with
  | keep hkeeps =>
    obtain ⟨es, hes, -⟩ := hkeeps.notes
    exact h.step hkind (fun id _ => binding?_congr (hkeeps.entriesOf_eq id)) ⟨es, hes⟩
  | load id key use hon hhits =>
    have hothers (other : ScopeId) (k : Datum.Key) (hne : ¬ (other = id ∧ k = key)) :
        (t.withUse id key use).binding? other k = t.binding? other k := by
      rw [binding?_withUse, if_neg hne]
    refine ⟨fun i kind hi => hkind i kind (h.kindOf_some i kind hi), ?_, fun other hother k => ?_, ?_⟩
    · obtain ⟨es, hes⟩ := h.history
      exact ⟨.loaded id key use :: es, congrArg _ hes⟩
    · rw [← h.binds_eq other hother, binds, binding?_withUse]
      split
      · rename_i heq
        rw [heq.1, heq.2, Option.isSome_map]
        rfl
      · rfl
    · intro other hother k b use' hb huse
      rw [binding?_withUse] at hb
      split at hb
      · rename_i heq
        obtain ⟨rfl, rfl⟩ := heq
        obtain ⟨old, hold, rfl⟩ := Option.map_eq_some_iff.mp hb
        cases huse
        right
        obtain ⟨inner, hinner, hsize⟩ := hon
        cases inner with
        | nil =>
          obtain ⟨hscope, hnearest⟩ := h.nearest_of_hits hhits hstack hinner hother
          exact .inr ⟨hscope, hnearest, [], t.history, old, rfl, ht.binding?_eq other k ▸ hold, rfl⟩
        | cons first inner =>
          obtain ⟨rest, hrest⟩ := hhits.top
          obtain ⟨rfl, -⟩ := cons.inj (hrest.symm.trans hinner)
          exact .inl (Nat.lt_of_succ_le (by simpa [opened] using hsize _ mem_cons_self))
      · refine (h.used other hother k b use' hb huse).imp_right (Or.imp_right ?_)
        rintro ⟨hscope, hnearest, hfound⟩
        exact ⟨hscope, hnearest, hfound.mono ⟨[_], rfl⟩⟩
  | @bind r es id key n b hon hscope hspeech hes _ _ _ =>
    refine h.step hkind (fun other hother k => ?_) ⟨.bound id key n b :: es, congrArg _ hes⟩
    rw [binding?_withBinding (by rwa [scope?, hspeech.scopes_eq]), hspeech.binding?_eq, if_neg]
    rintro ⟨rfl, -⟩
    exact absurd hother (Nat.not_lt.mpr (hon.elim fun _ => Carries.size_le))
  | @refuse r es id key n b hspeech hes _ =>
    exact h.step hkind (fun other _ k => hspeech.binding?_eq other k)
      ⟨.refused id key n b :: es, congrArg _ hes⟩
  | delete id key hon =>
    refine h.step hkind (fun other hother k => ?_) ⟨[_], rfl⟩
    rw [binding?_withoutBinding, if_neg]
    rintro ⟨rfl, -⟩
    exact absurd hother (Nat.not_lt.mpr (hon.elim fun _ => Carries.size_le))

end State.Around

/-- What the body of a function, or a first part of it, makes of the scopes around. -/
theorem Moves.around (h : Moves (s.opened .function).Carries (s.opened .function) t)
    (hs : s.Recorded) (hstack : ∀ id ∈ s.stack, id < s.scopes.size) : s.Around t := by
  have hkeeps : s.Keeps Kind.walked (s.opened .function) := s.keeps_opened .function
  induction h with
  | refl =>
    refine ⟨fun _ _ => id, ⟨[], rfl⟩, fun id _ key => ?_, fun id _ key b use hb _ => .inl ?_⟩
    · rw [State.binds, State.binding?_opened, State.binds]
    · rwa [← s.binding?_opened .function]
  | tail h₁ h ih => exact ih.move (Moves.recorded h₁ (hs.keeps hkeeps)) hstack h

/-- In every stack that is in use or saved, whatever is marked as used in a function further in is in
the nearest scope around the function that has the name, and a load has found it there. -/
structure State.Traced (s : State) : Prop where
  known : s.KnowsUses
  nearest : ∀ inner f outer, s.Retains (inner ++ f :: outer) → s.kindOf f = some .function →
    ∀ id ∈ outer, ∀ key b use, s.binding? id key = some b → b.used = some use → use.scope = f →
      (outer.filter s.isLending).find? (s.binds key) = some id ∧ s.Found id key use b

namespace State

theorem Orderly.lt_size_of_retains (h : s.Orderly) {stack : List ScopeId} (hstack : s.Retains stack)
    (hid : id ∈ stack) : id < s.scopes.size := by
  rcases hstack with rfl | ⟨q, i, d, hentry, rfl⟩
  · exact h.stack_based.lt_size h.kindOf_zero hid
  · exact (h.saved_based q i d hentry).lt_size h.kindOf_zero hid

variable (h : s.Traced)

include h

/-- Of the stacks it counts which parts of them there are. -/
theorem Traced.of_eq (hkind : ∀ id, t.kindOf id = s.kindOf id)
    (hbinding : ∀ id key, t.binding? id key = s.binding? id key)
    (hes : ∃ es, t.history = es ++ s.history)
    (hretains : ∀ stack, t.Retains stack → ∃ inner, s.Retains (inner ++ stack)) : t.Traced where
  known := by
    intro id key b use hb huse
    rw [hkind]
    exact h.known id key b use (hbinding id key ▸ hb) huse
  nearest := by
    intro inner f outer hstack hf id hid key b use hb huse hscope
    obtain ⟨more, hmore⟩ := hretains _ hstack
    rw [← append_assoc] at hmore
    rw [hbinding] at hb
    have hlending : t.isLending = s.isLending := funext fun i => by simp [isLending, hkind]
    have hbinds : t.binds key = s.binds key := funext fun i => by simp [binds, hbinding]
    rw [hlending, hbinds]
    obtain ⟨hnearest, hfound⟩ :=
      h.nearest _ f outer hmore ((hkind f).symm.trans hf) id hid key b use hb huse hscope
    exact ⟨hnearest, hfound.mono hes⟩

theorem Traced.resumed {i : Nat} {d : Deferred} (he : s.Entry q i d) :
    (s.resumed q i d).Traced := by
  refine h.of_eq (fun _ => rfl) (fun _ _ => rfl) ⟨[], rfl⟩ fun stack hstack => ⟨[], ?_⟩
  rcases hstack with rfl | ⟨q', j, e, hentry, rfl⟩
  · exact .inr ⟨q, i, d, he, rfl⟩
  · exact .inr ⟨q', j, e, by cases q' <;> exact hentry, rfl⟩

theorem Traced.speech {kinds : List Kind} (hspeech : s.Says kinds t) : t.Traced := by
  obtain ⟨es, hes, -⟩ := hspeech.notes
  refine h.of_eq hspeech.alike.kindOf_eq hspeech.binding?_eq ⟨es, hes⟩ fun stack hstack => ⟨[], ?_⟩
  rcases hstack with rfl | ⟨q, i, d, hentry, rfl⟩
  · exact .inl hspeech.alike.stack_eq
  · exact .inr ⟨q, i, d, by rwa [Entry, ← hspeech.alike.queue_eq], rfl⟩

theorem Traced.finished {entries : Array Deferred}
    (hentries : s.assignments = some entries) (n : Node) (top : ScopeId) (verdicts : List Task) :
    (s.finished n top entries verdicts).Traced := by
  refine h.of_eq (fun _ => rfl) (fun _ _ => rfl) ⟨[_], rfl⟩ fun stack hstack => ⟨[], ?_⟩
  rcases hstack with rfl | ⟨q, i, d, hentry, rfl⟩
  · exact .inl rfl
  · rcases (entry_finished hentries).mp hentry with hentry | ⟨-, -, task, -, rfl⟩
    · exact .inr ⟨q, i, d, hentry, rfl⟩
    · exact .inl rfl

theorem Traced.closed {rest : List ScopeId} (hstack : s.stack = id :: rest) :
    (s.closed id rest).Traced := by
  refine h.of_eq (fun _ => rfl) (fun _ _ => rfl) ⟨[], rfl⟩ fun stack hretains => ?_
  rcases hretains with rfl | ⟨q, i, d, hentry, rfl⟩
  · exact ⟨[id], .inl hstack.symm⟩
  · exact ⟨[], .inr ⟨q, i, d, by cases q <;> exact hentry, rfl⟩⟩

/-- What was marked before the body is as it was, as far as functions further out are concerned. -/
theorem Traced.around (hs : s.Orderly) (ha : s.Around t) {inner outer : List ScopeId} {f : ScopeId}
    (hstack : s.Retains (inner ++ f :: outer)) (hf : t.kindOf f = some .function) (hid : id ∈ outer)
    (hb : t.binding? id key = some b) (huse : b.used = some use) (hscope : use.scope = f) :
    (outer.filter t.isLending).find? (t.binds key) = some id ∧ t.Found id key use b := by
  have hsize : ∀ i ∈ f :: outer, i < s.scopes.size :=
    fun i hi => hs.lt_size_of_retains hstack (mem_append_right inner hi)
  obtain ⟨hfsize, houter⟩ := forall_mem_cons.mp hsize
  rw [ha.kindOf_eq hfsize] at hf
  rw [ha.find?_eq houter]
  rcases ha.used id (houter id hid) key b use hb huse with hold | hlt | ⟨heq, -⟩
  · obtain ⟨hnearest, hfound⟩ := h.nearest inner f outer hstack hf id hid key b use hold huse hscope
    exact ⟨hnearest, hfound.mono ha.history⟩
  · exact absurd hfsize (Nat.not_lt.mpr (Nat.le_of_lt (hscope ▸ hlt)))
  · exact absurd (hscope ▸ heq ▸ hfsize) (Nat.lt_irrefl _)

/-- The body of a function, or a first part of it, on top of the stack in use. -/
theorem Traced.body (hs : s.Orderly) (ha : s.Around t)
    (hn : (s.opened .function).Nested t) (hknown : t.KnowsUses) : t.Traced := by
  refine ⟨hknown, fun inner f outer hretains hf id hid key b use hb huse hscope => ?_⟩
  have hold : s.Retains (inner ++ f :: outer) ∨
      (s.opened .function).Carries (inner ++ f :: outer) := by
    rcases hretains with heq | ⟨q, i, d, hentry, heq⟩
    · exact .inr (heq ▸ hn.stack)
    · rcases hn.saved q i d hentry with hentry | hcarries
      · exact .inl (.inr ⟨q, i, d, by cases q <;> exact hentry, heq⟩)
      · exact .inr (heq ▸ hcarries)
  rcases hold with hretains | ⟨above, hstack, habove⟩
  · exact h.around hs ha hretains hf hid hb huse hscope
  -- the function is the new scope, or it is further out, or it was opened later and is no function
  have hnew (houter : outer = s.stack) (heq : f = s.scopes.size) :
      (outer.filter t.isLending).find? (t.binds key) = some id ∧ t.Found id key use b := by
    subst houter
    have hsize : ∀ i ∈ s.stack, i < s.scopes.size := fun i => hs.lt_size_of_retains (.inl rfl)
    rw [ha.find?_eq hsize]
    rcases ha.used id (hsize id hid) key b use hb huse with hold | hlt | ⟨-, hnearest, hfound⟩
    · obtain ⟨kind, hkind⟩ := h.known id key b use hold huse
      have hlt := lt_size_of_kindOf hkind
      exact absurd (heq ▸ hscope ▸ hlt) (Nat.lt_irrefl _)
    · exact absurd (heq ▸ hscope ▸ hlt) (Nat.lt_irrefl _)
    · exact ⟨hnearest, hfound⟩
  rcases append_eq_append_iff.mp hstack.symm with ⟨more, rfl, hrest⟩ | ⟨more, rfl, hrest⟩
  · cases more with
    | nil =>
      obtain ⟨heq, houter⟩ := cons.inj hrest
      exact hnew houter.symm heq.symm
    | cons first more =>
      obtain ⟨-, hfurther⟩ := cons.inj hrest
      exact h.around hs ha (.inl hfurther.symm) hf hid hb huse hscope
  · cases more with
    | nil =>
      obtain ⟨heq, houter⟩ := cons.inj hrest
      exact hnew houter heq
    | cons first more =>
      obtain ⟨rfl, -⟩ := cons.inj hrest
      exact absurd (lt_size_of_kindOf (hn.function f hf)) (Nat.not_lt.mpr (habove f (by simp)))

end State

section Runs

variable {next : Nat}

theorem State.Traced.task (h : s.Traced) (hs : s.Orderly) (hr : s.Recorded) {i : Nat} {d : Deferred}
    (he : s.Entry q i d) (hn : ((s.resumed q i d).opened .function).Nested t)
    (hm : Moves ((s.resumed q i d).opened .function).Carries ((s.resumed q i d).opened .function) t) :
    t.Traced := by
  have horderly := hs.resumed he
  have hrecorded := hr.keeps (s.keeps_resumed q i d Kind.walked)
  have htraced := h.resumed he
  have ha := hm.around hrecorded fun _ => horderly.lt_size_of_retains (.inl rfl)
  have hopened : (s.resumed q i d).Keeps Kind.walked ((s.resumed q i d).opened .function) :=
    State.keeps_opened _ .function
  have hmove : Move ((s.resumed q i d).opened .function).Carries (s.resumed q i d) _ := .keep hopened
  exact htraced.body horderly ha hn (hm.knowsUses (hmove.knowsUses htraced.known))

theorem Stroke.traced (h : Stroke cfg q s t) (hs : s.Traced) (ho : s.Orderly) (hr : s.Recorded) :
    t.Traced := by
  cases h with
  | body he _ hparameters hcourse hfinish hpop =>
    have halike := (mild_bindParameters _ _ _).ok hparameters
    have hu := hs.task ho hr he (hcourse.nested ((State.Nested.refl _).alike halike))
      (moves_inBody hparameters hcourse)
    obtain ⟨top, _, entries, -, hentries, rfl⟩ := finishBody_eq_ok hfinish
    obtain ⟨id, rest, hstack, rfl⟩ := popScope_eq_ok hpop
    exact (hu.finished hentries _ top _).closed hstack
  | doctests he h hp =>
    obtain ⟨id, rest, hstack, rfl⟩ := popScope_eq_ok hp
    exact (hs.task ho hr he (h.nested (.refl _)) h.moves).closed hstack
  | idle he => exact hs.resumed he
  | verdict he _ h => exact (hs.resumed he).speech h

theorem State.Nested.traced (h : (State.initial next).Nested t)
    (hm : Moves (State.initial next).Carries (State.initial next) t) : t.Traced := by
  have hnone (id : ScopeId) (key : Datum.Key) : (State.initial next).binding? id key = none :=
    (State.recorded_initial next).binding?_eq id key
  refine ⟨hm.knowsUses fun id key b use hb _ => ?_, fun inner f outer _ hf => ?_⟩
  · cases (hnone id key).symm.trans hb
  · have hf := h.function f hf
    cases f with
    | zero => cases hf
    | succ f => simp [State.kindOf, State.scope?, State.initial] at hf

theorem StrokeCut.traced (h : StrokeCut cfg s t) (hs : s.Traced) (ho : s.Orderly) (hr : s.Recorded) :
    t.Traced := by
  cases h with
  | here => exact hs
  | walk h => exact (h.nested (.refl _)).traced h.moves
  | parameters he _ h =>
    exact hs.task ho hr he ((State.Nested.refl _).alike ((mild_bindParameters _ _ _).fail h))
      (moves_parameters.fail h)
  | body he _ hparameters h =>
    have halike := (mild_bindParameters _ _ _).ok hparameters
    refine hs.task ho hr he (h.nested ((State.Nested.refl _).alike halike)) ?_
    refine (moves_parameters.ok hparameters).trans (h.moves.mono fun _ hid => ?_)
    exact hid.of_grows halike.stack_eq halike.grows
  | doctests he h => exact hs.task ho hr he (h.nested (.refl _)) h.moves
  | verdict he h => exact (hs.resumed he).speech h

theorem Run.traced (h : Run cfg next s) : s.Traced := by
  induction h with
  | start => exact (State.Nested.refl _).traced .refl
  | walk h => exact (h.nested (.refl _)).traced h.moves
  | stroke hrun h ih => exact h.traced ih hrun.orderly hrun.recorded
  | close _ ih =>
    refine ih.of_eq (fun _ => rfl) (fun _ _ => rfl) ⟨[], rfl⟩ fun stack hstack => ⟨[], ?_⟩
    rcases hstack with rfl | ⟨q, i, d, hentry, rfl⟩
    · exact .inl rfl
    · cases q with
      | functions =>
        obtain ⟨entries, hnone, -⟩ := hentry
        cases hnone
      | assignments => exact .inr ⟨.assignments, i, d, hentry, rfl⟩

theorem Setup.Reaches.traced (h : cfg.Reaches next t) : t.Traced := by
  obtain ⟨s, hrun, hcut⟩ := h
  exact hcut.traced hrun.traced hrun.orderly hrun.recorded

end Runs

/-- Where all but one of the items give nothing, it does not matter which end a search starts from. -/
theorem findSome?_reverse_of_unique {α β : Type} {f : α → Option β} {l : List α}
    (h : ∀ a ∈ l, ∀ b ∈ l, (f a).isSome = true → (f b).isSome = true → a = b) :
    l.reverse.findSome? f = l.findSome? f := by
  cases hfirst : l.findSome? f with
  | none =>
    rw [findSome?_eq_none_iff] at hfirst ⊢
    exact fun a ha => hfirst a (mem_reverse.mp ha)
  | some x =>
    obtain ⟨a, ha, hx⟩ := exists_of_findSome?_eq_some hfirst
    cases hlast : l.reverse.findSome? f with
    | none =>
      have hnone := findSome?_eq_none_iff.mp hlast a (mem_reverse.mpr ha)
      cases hnone.symm.trans hx
    | some y =>
      obtain ⟨b, hb, hy⟩ := exists_of_findSome?_eq_some hlast
      obtain rfl := h a ha b (mem_reverse.mp hb) (by simp [hx]) (by simp [hy])
      exact hy.symm.trans hx

namespace State

variable {top : ScopeId}

/-- The use in the scope `top` that the binding of the name in the scope `id` is marked with, where
that is a scope of a function or of the module. -/
def useIn? (s : State) (top : ScopeId) (key : Datum.Key) (id : ScopeId) : Option (Use × Binding) :=
  if s.isLending id then
    (s.binding? id key).bind fun b =>
      b.used.bind fun use => if use.scope = top then some (use, b) else none
  else none

theorem useIn?_eq_some (h : s.useIn? top key id = some (use, b)) :
    s.binding? id key = some b ∧ b.used = some use ∧ use.scope = top := by
  unfold useIn? at h
  split at h
  · obtain ⟨b', hb, h⟩ := Option.bind_eq_some_iff.mp h
    obtain ⟨use', huse, h⟩ := Option.bind_eq_some_iff.mp h
    split at h
    · cases h
      exact ⟨hb, huse, by assumption⟩
    · cases h
  · cases h

/-- What is marked as used in a function is in the nearest scope around it that has the name. -/
theorem Traced.of_useIn? (h : s.Traced) {outer : List ScopeId} (hstack : s.stack = top :: outer)
    (hkind : s.kindOf top = some .function) (hid : id ∈ outer)
    (huse : s.useIn? top key id = some (use, b)) :
    (outer.filter s.isLending).find? (s.binds key) = some id ∧ s.Found id key use b := by
  obtain ⟨hb, hused, hscope⟩ := useIn?_eq_some huse
  exact h.nearest [] top outer (.inl hstack.symm) hkind id hid key b use hb hused hscope

end State

/-- From one state to another, names are said to be used too early in these words only. -/
def State.Cites (words : List Datum → Prop) (s t : State) : Prop :=
  ∃ es, t.history = es ++ s.history ∧ ∀ args, .reported .undefinedLocal args ∈ es → words args

theorem State.Cites.trans (h : s.Cites words t) (k : t.Cites words u) : s.Cites words u := by
  obtain ⟨es, hes, hall⟩ := h
  obtain ⟨more, hmore, hmoreAll⟩ := k
  refine ⟨more ++ es, by rw [hmore, hes, append_assoc], fun args hargs => ?_⟩
  exact (mem_append.mp hargs).elim (hmoreAll args) (hall args)

def Ending.cites (words : List Datum → Prop) : Ending :=
  ⟨State.Cites words, State.Cites words, fun _ => ⟨[], rfl, by simp⟩, fun _ => ⟨[], rfl, by simp⟩,
    .trans, .trans⟩

namespace Check

theorem cites_of_speech (h : s.Says Kind.besides t) : s.Cites words t := by
  obtain ⟨es, hes, hnotes⟩ := h.notes
  have hcodes : ∀ k ∈ Kind.besides, k.hasCode "E305" = false := by decide
  exact ⟨es, hes, fun args hargs => nomatch hcodes _ (hnotes _ hargs)⟩

theorem cites_report {subject : Value} {args : List Datum} (h : words (s.datumOf subject :: args)) :
    EndsAt (.cites words) (report cfg .undefinedLocal subject args) s := by
  refine (reads_datum subject).ends s |>.bind fun d r hd => ?_
  rw [datum_apply] at hd
  cases hd
  have hrecord : EndsAt (.cites words)
      (record (.reported .undefinedLocal (s.datumOf subject :: args))) s :=
    ⟨[_], rfl, fun args' hargs => by cases mem_singleton.mp hargs; exact h⟩
  unfold reportWith
  dsimp only
  split
  · exact ends_throw _ s
  · refine hrecord.bind fun _ r _ => ((ends_lift _).bind fun ignored => ?_) r
    split
    · refine (ends_lift _).bind fun d => (ends_lift _).bind fun hidden => ?_
      split
      · exact ends_modify fun s => ⟨[], rfl, by simp⟩
      · exact ends_pure _
    · exact ends_pure _

theorem cites_bind (b : Binding) (reportsHidden : Bool) :
    Ends (.cites words) (bind cfg n b reportsHidden) := by
  refine ends_of (fun s _ t h => ?_) fun s e t h => cites_of_speech (bind_eq_error h)
  obtain ⟨top, rest, key, r, es, -, -, -, hspeech, -, hend⟩ := bind_eq_ok h
  refine (cites_of_speech hspeech).trans ?_
  rcases hend with ⟨rfl, -⟩ | ⟨rfl, -⟩
  · exact ⟨[_], rfl, by simp⟩
  · exact ⟨[_], rfl, by simp⟩

/-- A store says that the name is used too early only where it is new in a function and a scope
around it is marked. -/
theorem cites_store (h : ∀ top rest name key use b, s.stack = top :: rest →
      (Value.node n).nameOf? = some name → name.key = .ok key → s.kindOf top = some .function →
      s.binds key top = false → s.usedOutside? top key = some (use, b) →
      words [s.datumOf use.node, name, s.datumOf b.source]) :
    EndsAt (.cites words) (store cfg n) s := by
  unfold store
  split
  · exact ends_pure _ s
  · rename_i name hname
    refine (reads_current.ends s).bind fun ⟨top, scope⟩ t hcurrent => ?_
    obtain ⟨rfl, ⟨rest, hstack⟩, hscope⟩ := current_eq_ok hcurrent
    refine (ends_lift _ _).bind fun key t₁ hlift => ?_
    obtain ⟨hkey, rfl⟩ := lift_apply_eq_ok.mp hlift
    have hreport : EndsAt (.cites words) (reportUsedBefore cfg top scope key name) t₁ := by
      unfold reportUsedBefore
      split
      · rename_i hnew
        refine (ends_get _).bind fun _ r hget => ?_
        cases hget
        split
        · rename_i use b hused
          refine (reads_datum _).ends _ |>.bind fun d r hd => ?_
          rw [datum_apply] at hd
          cases hd
          refine cites_report (h top rest name key use b hstack hname hkey ?_ ?_ hused)
          · simpa [State.kindOf, hscope] using hnew.1
          · simpa [State.binds, State.binding?, hscope, Scope.has] using hnew.2.1
        · exact ends_pure _ _
      · exact ends_pure _ _
    refine hreport.bind fun _ r _ => (ends_get.bind fun _ => (ends_lift _).bind fun _ => ?_) r
    exact cites_bind _ _

/-- At every moment of a run where the scope of a function is on top, at most one scope of a function
or of the module further out has a binding of the name that is marked as used in this function, so
that a search for it may start from either end. If a store says that the name is used too early, then
the name was loaded earlier in the function itself, the load is on record, and what the report cites
is the binding that this load has found, in the nearest scope further out that has the name. -/
theorem undefinedLocal_cites_nearest_binding (cfg : Setup) (next : Nat) (t : State) (f : ScopeId)
    (outer : List ScopeId) (h : cfg.Reaches next t) (hstack : t.stack = f :: outer)
    (hkind : t.kindOf f = some .function) :
    (∀ key, ∀ id ∈ outer, ∀ other ∈ outer, (t.useIn? f key id).isSome = true →
      (t.useIn? f key other).isSome = true → id = other) ∧
    (∀ key, t.usedOutside? f key = outer.findSome? (t.useIn? f key)) ∧
    ∀ n es args, (after (store cfg n) t).history = es ++ t.history →
      .reported .undefinedLocal args ∈ es →
      ∃ name key id use old later earlier, (Value.node n).nameOf? = some name ∧
        name.key = .ok key ∧ t.binds key f = false ∧
        t.history = later ++ .loaded id key use :: earlier ∧ use.scope = f ∧
        (outer.filter t.isLending).find? (t.binds key) = some id ∧
        replayed id key earlier = some old ∧
        args = [t.datumOf use.node, name, t.datumOf old.source] := by
  have htraced := h.traced
  have hunique : ∀ key, ∀ id ∈ outer, ∀ other ∈ outer, (t.useIn? f key id).isSome = true →
      (t.useIn? f key other).isSome = true → id = other := by
    intro key id hid other hother hsome hsome'
    obtain ⟨x, hx⟩ := Option.isSome_iff_exists.mp hsome
    obtain ⟨y, hy⟩ := Option.isSome_iff_exists.mp hsome'
    have hnearest := (htraced.of_useIn? hstack hkind hid hx).1
    exact Option.some.inj (hnearest.symm.trans (htraced.of_useIn? hstack hkind hother hy).1)
  have hscan (key : Datum.Key) : t.usedOutside? f key = outer.findSome? (t.useIn? f key) := by
    have houtside : t.usedOutside? f key = t.stack.tail.reverse.findSome? (t.useIn? f key) := rfl
    rw [houtside, hstack]
    exact findSome?_reverse_of_unique (hunique key)
  refine ⟨hunique, hscan, fun n es args hes hargs => ?_⟩
  have hcites : EndsAt (.cites fun args => ∃ name key id use old later earlier,
      (Value.node n).nameOf? = some name ∧ name.key = .ok key ∧ t.binds key f = false ∧
      t.history = later ++ .loaded id key use :: earlier ∧ use.scope = f ∧
      (outer.filter t.isLending).find? (t.binds key) = some id ∧ replayed id key earlier = some old ∧
      args = [t.datumOf use.node, name, t.datumOf old.source]) (store cfg n) t := by
    refine cites_store fun top rest name key use b hstack' hname hkey _ hnew hused => ?_
    obtain ⟨rfl, rfl⟩ := List.cons.inj (hstack.symm.trans hstack')
    rw [hscan] at hused
    obtain ⟨id, hid, huse⟩ := List.exists_of_findSome?_eq_some hused
    obtain ⟨hnearest, later, earlier, old, hhistory, hold, rfl⟩ :=
      htraced.of_useIn? hstack hkind hid huse
    exact ⟨name, key, id, use, old, later, earlier, hname, hkey, hnew, hhistory,
      (State.useIn?_eq_some huse).2.2, hnearest, hold, rfl⟩
  obtain ⟨es', hes', hall⟩ : t.Cites _ (after (store cfg n) t) := hcites.after
  obtain rfl := List.append_cancel_right (hes.symm.trans hes')
  exact hall args hargs

end Check

namespace Sample

/-- The module and a function bind `x`. A function within loads it, and then it stores it at the node
16. -/
def closest : Setup :=
  setup [assign 1 "x", function 2 "a" [assign 3 "x", function 4 "b" [name 5 "x" "Load", assign 6 "x"]]]

def lateTarget : Node :=
  ⟨16, "Name", some (.of 6 0), [("id", .text "x"), ("ctx", .node ⟨17, "Store", none, []⟩)]⟩

def beforeTarget : State := reached closest (atNode 16) closest.root.size

end Sample

namespace Check

open Sample

/-- The variable of the function around is the one that is cited, and not the one of the module. -/
theorem undefinedLocal_cites_nearest_binding_closest :
    beforeTarget.stack = [2, 1, 0] ∧
    beforeTarget.usedOutside? 2 (.text "x") =
      [1, 0].findSome? (beforeTarget.useIn? 2 (.text "x")) ∧
    ∃ es args use old later earlier,
      (after (store closest lateTarget) beforeTarget).history = es ++ beforeTarget.history ∧
      .reported .undefinedLocal args ∈ es ∧
      beforeTarget.history = later ++ .loaded 1 (.text "x") use :: earlier ∧ use.scope = 2 ∧
      replayed 1 (.text "x") earlier = some old ∧
      args = [beforeTarget.datumOf use.node, .text "x", beforeTarget.datumOf old.source] := by
  have hcheck : (decide (beforeTarget.stack = [2, 1, 0]) &&
      decide (beforeTarget.kindOf 2 = some .function) &&
      decide (([1, 0].filter beforeTarget.isLending).find? (beforeTarget.binds (.text "x")) = some 1) &&
      (beforeTarget.usedBefore? lateTarget).isSome &&
      finishes (store closest lateTarget) beforeTarget) = true := by decide +kernel
  simp only [Bool.and_eq_true, decide_eq_true_eq] at hcheck
  obtain ⟨⟨⟨⟨hstack, hkind⟩, hnearest⟩, hbefore⟩, hok⟩ := hcheck
  obtain ⟨-, hscan, hcites⟩ := undefinedLocal_cites_nearest_binding closest closest.root.size
    beforeTarget 2 [1, 0] (cut_reached closest (atNode 16) closest.root.size) hstack hkind
  refine ⟨hstack, hscan _, ?_⟩
  obtain ⟨u, hstore⟩ := exists_of_finishes hok
  have hafter : after (store closest lateTarget) beforeTarget = u := by rw [after, hstore]
  have hcites := hcites lateTarget
  rw [hafter] at hcites ⊢
  rcases store_eq_ok hstore with ⟨hnone, -⟩ | ⟨_, _, _, _, _, _, _, r, -, -, -, -, -, hsaid, hbind⟩
  · cases hnone
  rcases hsaid with ⟨hnone, -⟩ | ⟨use, b, -, hreport⟩
  · rw [hnone] at hbefore
    cases hbefore
  obtain ⟨es, hrest⟩ : ∃ es, u.history = es ++ r.history := by
    obtain ⟨_, _, _, r', es, -, -, -, -, hes, ⟨rfl, -⟩ | ⟨rfl, -⟩⟩ := bind_eq_ok hbind
    · exact ⟨_ :: es, congrArg _ hes⟩
    · exact ⟨_ :: es, congrArg _ hes⟩
  obtain ⟨args, hes⟩ : ∃ args,
      u.history = (es ++ [.reported .undefinedLocal args]) ++ beforeTarget.history :=
    ⟨_, by rw [hrest, report_eq_ok hreport, List.append_assoc, List.singleton_append]⟩
  have hmem : .reported .undefinedLocal args ∈ es ++ [.reported .undefinedLocal args] := by simp
  obtain ⟨_, _, id, use, old, later, earlier, hname, hkey, -, hhistory, hscope, hid, hold, hargs⟩ :=
    hcites _ _ hes hmem
  cases hname
  cases hkey
  obtain rfl := Option.some.inj (hnearest.symm.trans hid)
  exact ⟨_, _, use, old, later, earlier, hes, hmem, hhistory, hscope, hold, hargs⟩

end Check

end ScopeLint
