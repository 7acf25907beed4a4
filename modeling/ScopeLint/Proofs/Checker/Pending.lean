import ScopeLint.Proofs.Checker.Recorded

/-! # The verdicts that are pending

While trees are walked and bodies are gone through, no verdict is given. For each body that has been
gone through one is put off, and from then on nothing is bound or deleted in the scope of the body. -/
namespace ScopeLint

open List Check

namespace Event

def bodyOf? : Event → Option ScopeId
  | .body _ id => some id
  | _ => none

/-- Whether the event can come up while names are bound and deleted only in scopes of the kind `own`
and no body comes to its end. -/
def IsIn (own : ScopeId → Prop) : Event → Prop
  | .bound id _ _ _ | .deleted id _ => own id
  | .body _ _ => False
  | .reported k _ => k ∈ Kind.walked
  | _ => True

/-- Whether the event is not about the end of the body in the scope, and binds and deletes nothing in
it. -/
def Spares (id : ScopeId) : Event → Prop
  | .bound other _ _ _ | .deleted other _ | .body _ other => other ≠ id
  | _ => True

variable {own : ScopeId → Prop} {e : Event} {id : ScopeId}

theorem IsNote.isIn (h : e.IsNote Kind.walked) : e.IsIn own := by
  cases e with
  | compared => trivial
  | reported => exact h
  | _ => exact h.elim

theorem IsIn.bodyOf?_eq (h : e.IsIn own) : e.bodyOf? = none := by
  cases e with
  | body => exact h.elim
  | _ => rfl

theorem IsIn.spares (h : e.IsIn own) (hid : ¬ own id) : e.Spares id := by
  cases e with
  | bound other | deleted other =>
    rintro rfl
    exact hid h
  | body => exact h.elim
  | _ => trivial

theorem spares_of_isNote (h : e.isNote = true) : e.Spares id := by
  cases e with
  | compared | reported => trivial
  | _ => cases h

end Event

section Histories

variable {on : List ScopeId → Prop} {own : ScopeId → Prop} {s t : State}

/-- What a move puts on record, where the scopes on top are of the kind `own`. -/
theorem Move.history (h : Move on s t) (hown : ∀ id rest, on (id :: rest) → own id) :
    ∃ es, t.history = es ++ s.history ∧ ∀ e ∈ es, e.IsIn own := by
  have hnotes {r : State} {es : List Event} (hspeech : s.Says Kind.walked r)
      (hes : r.history = es ++ s.history) : ∀ e ∈ es, e.IsIn own :=
    fun e he => (hspeech.isNote hes e he).isIn
  cases h with
  | keep h =>
    obtain ⟨es, hes, hall⟩ := h.notes
    exact ⟨es, hes, fun e he => (hall e he).isIn⟩
  | load id key use _ _ =>
    refine ⟨[.loaded id key use], rfl, ?_⟩
    simp [Event.IsIn]
  | @bind r es id key n b hon _ hspeech hes _ _ _ =>
    refine ⟨.bound id key n b :: es, congrArg _ hes, ?_⟩
    exact forall_mem_cons.mpr ⟨hon.elim (hown id), hnotes hspeech hes⟩
  | @refuse r es id key n b hspeech hes _ =>
    refine ⟨.refused id key n b :: es, congrArg _ hes, ?_⟩
    exact forall_mem_cons.mpr ⟨trivial, hnotes hspeech hes⟩
  | delete id key hon =>
    refine ⟨[.deleted id key], rfl, ?_⟩
    simpa [Event.IsIn] using hon.elim (hown id)

theorem Moves.history (h : Moves on s t) (hown : ∀ id rest, on (id :: rest) → own id) :
    ∃ es, t.history = es ++ s.history ∧ ∀ e ∈ es, e.IsIn own := by
  induction h with
  | refl => exact ⟨[], rfl, by simp⟩
  | tail _ h ih =>
    obtain ⟨es, hes, hall⟩ := ih
    obtain ⟨more, hmore, hmoreAll⟩ := h.history hown
    refine ⟨more ++ es, by rw [hmore, hes, append_assoc], fun e he => ?_⟩
    exact (mem_append.mp he).elim (hmoreAll e) (hall e)

end Histories

/-- Whether a task is the body of a function or a docstring with examples. -/
def Task.IsWork : Task → Prop
  | .body n _ => n.isFunction = true
  | .doctests _ => True
  | .assignments | .returns _ => False

theorem Task.IsOf.isWork {task : Task} {n : Node} (h : task.IsOf n) : task.IsWork := by
  cases task with
  | body m names =>
    obtain ⟨rfl, hfunction⟩ := h
    exact hfunction
  | doctests => trivial
  | assignments | returns => exact h.elim

theorem Task.IsWork.isVerdict_eq {task : Task} (h : task.IsWork) : task.isVerdict = false := by
  cases task with
  | body | doctests => rfl
  | assignments | returns => exact h.elim

namespace State

/-- No verdict waits among the bodies and docstrings. -/
def Works (s : State) : Prop := ∀ i d, s.Entry .functions i d → d.task.IsWork

/-- What has been put off in between are bodies and docstrings. -/
structure Defers (s t : State) : Prop where
  assignments_eq : t.assignments = s.assignments
  works : s.Works → t.Works

variable {s t u : State}

theorem Defers.of_eq (hfunctions : t.functions = s.functions)
    (hassignments : t.assignments = s.assignments) : s.Defers t := by
  refine ⟨hassignments, fun hs i d hd => hs i d ?_⟩
  rwa [Entry, queue, hfunctions] at hd

theorem Defers.trans (h : s.Defers t) (k : t.Defers u) : s.Defers u :=
  ⟨k.assignments_eq.trans h.assignments_eq, fun hs => k.works (h.works hs)⟩

theorem Alike.defers (h : s.Alike t) : s.Defers t := .of_eq h.functions_eq h.assignments_eq

end State

variable {cfg : Setup} {s t : State}

theorem Course.defers {n : Node} {vs : List Value} (h : Course cfg n vs s t) : s.Defers t := by
  refine h.induces (fun _ => .of_eq rfl rfl) .trans State.Alike.defers
    (fun _ _ h => ⟨h.assignments_eq, h.works⟩) (fun h => ⟨h.assignments_eq, h.works⟩)
    (fun hof hq => ⟨rfl, fun hs i d hd => ?_⟩) (fun _ _ h => ⟨h.assignments_eq, h.works⟩)
  rcases (State.entry_withTask hq).mp hd with hd | ⟨-, -, rfl⟩
  · exact hs i d hd
  · exact hof.isWork

theorem Examples.defers (h : Examples cfg s t) : s.Defers t :=
  h.induces (fun _ => .of_eq rfl rfl) .trans (·.alike.defers) (fun _ _ _ => .of_eq rfl rfl)
    Course.defers fun _ _ => .of_eq rfl rfl

/-- What a body or docstring does to the record and to the verdicts that are put off. -/
inductive Progress (cfg : Setup) (s t : State) : Prop where
  | plain {es} : t.history = es ++ s.history → (∀ e ∈ es, e.IsIn (s.scopes.size ≤ ·)) →
      t.assignments = s.assignments → Progress cfg s t
  | body {es n entries rest shift} : n.isFunction = true → t.kindOf s.scopes.size = some .function →
      t.history = .body n s.scopes.size :: (es ++ s.history) →
      (∀ e ∈ es, e.IsIn (s.scopes.size ≤ ·)) → s.assignments = some entries →
      t.assignments = some (entries ++ ((cfg.verdicts n).map fun task =>
        Deferred.mk task (s.scopes.size :: rest) shift).toArray) → Progress cfg s t

variable {cfg : Setup} {s t : State} {own : ScopeId → Prop} {es : List Event} {n : Node}

section Strokes

theorem Stroke.progress (h : Stroke cfg .functions s t) (hs : s.Works) :
    t.Works ∧ Progress cfg s t := by
  have hresumed (i : Nat) (d : Deferred) : s.Defers (s.resumed .functions i d) := .of_eq rfl rfl
  have hopened (i : Nat) (d : Deferred) : s.Defers ((s.resumed .functions i d).opened .function) :=
    .of_eq rfl rfl
  cases h with
  | @body r u v _ i d n names he htask hparameters hcourse hfinish hpop =>
    have halike := (mild_bindParameters cfg n names).ok hparameters
    have hdefers := ((hopened i d).trans halike.defers).trans hcourse.defers
    have hstack : u.stack = s.scopes.size :: d.stack :=
      hcourse.level.stack_eq.trans halike.stack_eq
    obtain ⟨top, rest, entries, htop, hentries, rfl⟩ := finishBody_eq_ok hfinish
    obtain ⟨rfl, rfl⟩ := cons.inj (hstack.symm.trans htop)
    obtain ⟨id, rest, -, rfl⟩ := popScope_eq_ok hpop
    obtain ⟨es, hes, hall⟩ := (moves_body hparameters hcourse).history fun _ _ => State.Carries.size_le
    have hfunction : n.isFunction = true := by
      have hwork := hs i d he
      rwa [htask] at hwork
    have hkind : u.kindOf s.scopes.size = some .function := by
      have hsize : s.scopes.size < r.scopes.size := by
        rw [halike.size_eq]
        simp [State.opened, State.resumed]
      rw [hcourse.grows.kindOf_eq _ hsize, halike.kindOf_eq]
      exact State.kindOf_opened_size (s.resumed .functions i d) .function
    have hverdicts : (u.finished n s.scopes.size entries (cfg.verdicts n)).assignments =
        some (entries ++ ((cfg.verdicts n).map fun task =>
          Deferred.mk task (s.scopes.size :: d.stack) u.shift).toArray) := by
      simp only [State.finished, hstack]
    refine ⟨hdefers.works hs, ?_⟩
    rw [hdefers.assignments_eq] at hentries
    exact .body hfunction hkind (congrArg _ hes) hall hentries hverdicts
  | @doctests u _ i d he h hp =>
    obtain ⟨id, rest, -, rfl⟩ := popScope_eq_ok hp
    have hdefers := (hopened i d).trans h.defers
    obtain ⟨es, hes, hall⟩ := (moves_examples h).history fun _ _ => State.Carries.size_le
    exact ⟨hdefers.works hs, .plain hes hall hdefers.assignments_eq⟩
  | @idle i d _ =>
    have hsame : (s.resumed .functions i d).history = [] ++ s.history := rfl
    exact ⟨(hresumed i d).works hs, .plain hsame (by simp) rfl⟩
  | @verdict _ i d he hverdict _ => cases (hs i d he).isVerdict_eq.symm.trans hverdict

end Strokes

/-- The scope that the task is a verdict on. -/
def Deferred.judges? (d : Deferred) : Option ScopeId :=
  match d.task with
  | .assignments => d.stack.head?
  | _ => none

def Kind.hasCode (k : Kind) (code : String) : Bool := k.code.text? == some code

/-- The arguments of the diagnostic that came up at the event, if it has the code. -/
def Event.argsOf? (code : String) : Event → Option (List Datum)
  | .reported k args => if k.hasCode code then some args else none
  | _ => none

variable {e : Event} {code : String}

theorem Event.IsIn.argsOf?_eq (h : e.IsIn own) (hcode : ∀ k ∈ Kind.walked, k.hasCode code = false) :
    e.argsOf? code = none := by
  cases e with
  | reported k args => simp [argsOf?, hcode k h]
  | _ => rfl

theorem Event.IsNote.argsOf?_eq {kinds : List Kind} (h : e.IsNote kinds)
    (hcode : ∀ k ∈ kinds, k.hasCode code = false) : e.argsOf? code = none := by
  cases e with
  | reported k args => simp [argsOf?, hcode k h]
  | _ => rfl

theorem Event.filterMap_reported {α : Type} (k : Kind) (f : α → List Datum) (xs : List α)
    (code : String) : (xs.map fun a => .reported k (f a)).filterMap (argsOf? code) =
      if k.hasCode code then xs.map f else [] := by
  rw [filterMap_map]
  cases hk : k.hasCode code with
  | true => simp [Function.comp_def, argsOf?, hk]
  | false => simp [Function.comp_def, argsOf?, hk]

namespace State

def bodies (s : State) : List ScopeId := s.history.reverse.filterMap Event.bodyOf?

/-- The arguments of all diagnostics with the code, the first one first. Those that are left out in
the end are here too. -/
def reportsOf (s : State) (code : String) : List (List Datum) :=
  s.history.reverse.filterMap (Event.argsOf? code)

/-- Bodies that have been gone through are those of functions, each in a scope of its own, in which
nothing has been bound or deleted since. -/
structure Settled (s : State) : Prop where
  function_of_body : ∀ n id, .body n id ∈ s.history →
    n.isFunction = true ∧ s.kindOf id = some .function
  spared : s.history.Pairwise fun e earlier => ∀ n id, earlier = .body n id → e.Spares id

/-- No verdict has been given yet, and those on the bodies that have been gone through are put off. -/
structure Pending (s : State) : Prop where
  works : s.Works
  verdicts : ∃ entries, s.assignments = some entries ∧
    (∀ d ∈ entries.toList, d.task.isVerdict = true) ∧
    entries.toList.filterMap Deferred.judges? = s.bodies
  unsaid : s.reportsOf "E307" = []
  settled : s.Settled

variable {id : ScopeId}

theorem bodies_of_history (h : t.history = es ++ s.history) :
    t.bodies = s.bodies ++ es.reverse.filterMap Event.bodyOf? := by
  simp [bodies, h]

theorem reportsOf_of_history (h : t.history = es ++ s.history) (code : String) :
    t.reportsOf code = s.reportsOf code ++ es.reverse.filterMap (Event.argsOf? code) := by
  simp [reportsOf, h]

theorem Says.reportsOf_eq {kinds : List Kind} (h : s.Says kinds t)
    (hcode : ∀ k ∈ kinds, k.hasCode code = false) : t.reportsOf code = s.reportsOf code := by
  obtain ⟨es, hes, hnotes⟩ := h.notes
  rw [reportsOf_of_history hes, filterMap_eq_nil_iff.mpr, append_nil]
  exact fun e he => (hnotes e (mem_reverse.mp he)).argsOf?_eq hcode

/-- Events that leave the scopes of all bodies alone. -/
theorem Settled.append (h : s.Settled) (hes : t.history = es ++ s.history)
    (hkind : ∀ id kind, s.kindOf id = some kind → t.kindOf id = some kind)
    (hnone : ∀ e ∈ es, e.bodyOf? = none)
    (hspares : ∀ e ∈ es, ∀ n id, .body n id ∈ s.history → e.Spares id) : t.Settled := by
  have hnobody : ∀ n id, .body n id ∉ es := fun n id hmem => by cases hnone _ hmem
  refine ⟨fun n id hmem => ?_, ?_⟩
  · rw [hes] at hmem
    rcases mem_append.mp hmem with hmem | hmem
    · exact absurd hmem (hnobody n id)
    · exact (h.function_of_body n id hmem).imp_right (hkind id _)
  · rw [hes, pairwise_append]
    refine ⟨?_, h.spared, fun e he earlier hearlier n id hbody => ?_⟩
    · refine pairwise_of_forall_mem_list fun e _ earlier hearlier n id hbody => ?_
      exact absurd (hbody ▸ hearlier) (hnobody n id)
    · exact hspares e he n id (hbody ▸ hearlier)

theorem Settled.cons (h : s.Settled) (hes : t.history = .body n id :: s.history)
    (hfunction : n.isFunction = true) (hkind : ∀ id, t.kindOf id = s.kindOf id)
    (hid : s.kindOf id = some .function) (hnew : ∀ m, .body m id ∉ s.history) : t.Settled := by
  refine ⟨fun m other hmem => ?_, ?_⟩
  · rw [hkind]
    rw [hes] at hmem
    rcases mem_cons.mp hmem with heq | hmem
    · cases heq
      exact ⟨hfunction, hid⟩
    · exact h.function_of_body m other hmem
  · rw [hes, pairwise_cons]
    refine ⟨fun e he m other hbody heq => ?_, h.spared⟩
    subst heq
    exact hnew m (hbody ▸ he)

/-- Each scope is that of one body at most. -/
theorem Settled.nodup_bodies (h : s.Settled) : s.bodies.Nodup := by
  unfold bodies
  rw [filterMap_reverse, (reverse_perm _).nodup_iff]
  refine List.Pairwise.filterMap _ (fun e earlier hspares id hid other hother => ?_) h.spared
  cases e with
  | body n i =>
    cases earlier with
    | body m j =>
      cases hid
      cases hother
      exact hspares m _ rfl
    | _ => cases hother
  | _ => cases hid

theorem mem_bodies : id ∈ s.bodies ↔ ∃ n, .body n id ∈ s.history := by
  simp only [bodies, mem_filterMap, mem_reverse]
  constructor
  · rintro ⟨e, he, hid⟩
    cases e with
    | body n i =>
      cases hid
      exact ⟨n, he⟩
    | _ => cases hid
  · rintro ⟨n, hn⟩
    exact ⟨.body n id, hn, rfl⟩

theorem Settled.lt_size (h : s.Settled) (hid : .body n id ∈ s.history) : id < s.scopes.size :=
  lt_size_of_kindOf (h.function_of_body n id hid).2

theorem bodies_eq_of_isIn (hes : t.history = es ++ s.history)
    (hall : ∀ e ∈ es, e.IsIn own) : t.bodies = s.bodies := by
  rw [bodies_of_history hes, filterMap_eq_nil_iff.mpr, append_nil]
  exact fun e he => (hall e (mem_reverse.mp he)).bodyOf?_eq

theorem reportsOf_eq_of_isIn (hes : t.history = es ++ s.history)
    (hall : ∀ e ∈ es, e.IsIn own) (hcode : ∀ k ∈ Kind.walked, k.hasCode code = false) :
    t.reportsOf code = s.reportsOf code := by
  rw [reportsOf_of_history hes, filterMap_eq_nil_iff.mpr, append_nil]
  exact fun e he => (hall e (mem_reverse.mp he)).argsOf?_eq hcode

end State

theorem Setup.filterMap_verdicts (cfg : Setup) (n : Node) (id : ScopeId) (rest : List ScopeId)
    (shift : Option Shift) : ((cfg.verdicts n).map fun task =>
      Deferred.mk task (id :: rest) shift).filterMap Deferred.judges? = [id] := by
  unfold Setup.verdicts
  split <;> rfl

theorem Setup.isVerdict_of_mem_verdicts {task : Task} (h : task ∈ cfg.verdicts n) :
    task.isVerdict = true := by
  rcases mem_cons.mp h with rfl | h
  · rfl
  · split at h
    · obtain rfl := mem_singleton.mp h
      rfl
    · cases h

section Strokes

theorem Kind.walked_not_unused : ∀ k ∈ Kind.walked, k.hasCode "E307" = false := by decide

private theorem State.Settled.later (h : s.Settled) (hall : ∀ e ∈ es, e.IsIn (s.scopes.size ≤ ·)) :
    ∀ e ∈ es, ∀ n id, .body n id ∈ s.history → e.Spares id := fun e he _ _ hid =>
  (hall e he).spares (Nat.not_le_of_lt (h.lt_size hid))

theorem Stroke.pending (h : Stroke cfg .functions s t) (hs : s.Pending) : t.Pending := by
  obtain ⟨hworks, hprogress⟩ := h.progress hs.works
  have hgrows (id : ScopeId) (kind : ScopeKind) (hid : s.kindOf id = some kind) :
      t.kindOf id = some kind := (h.grows.kindOf_eq id (State.lt_size_of_kindOf hid)).trans hid
  obtain ⟨entries, hentries, hverdicts, hjudged⟩ := hs.verdicts
  cases hprogress with
  | plain hes hall hassignments =>
    refine ⟨hworks, ⟨entries, hassignments.trans hentries, hverdicts, ?_⟩, ?_, ?_⟩
    · rw [hjudged, State.bodies_eq_of_isIn hes hall]
    · rw [State.reportsOf_eq_of_isIn hes hall Kind.walked_not_unused, hs.unsaid]
    · exact hs.settled.append hes hgrows (fun e he => (hall e he).bodyOf?_eq)
        (hs.settled.later hall)
  | @body es n entries' rest shift hfunction hkind hes hall hentries' hassignments =>
    obtain rfl := Option.some.inj (hentries.symm.trans hentries')
    -- the record just before the end of the body
    let r : State := { t with history := es ++ s.history }
    have hr : r.history = es ++ s.history := rfl
    have ht : t.history = [.body n s.scopes.size] ++ r.history := hes
    have hsettled : r.Settled := hs.settled.append hr hgrows (fun e he => (hall e he).bodyOf?_eq)
      (hs.settled.later hall)
    have hnew (m : Node) : .body m s.scopes.size ∉ r.history := by
      intro hmem
      rcases mem_append.mp hmem with hmem | hmem
      · exact hall _ hmem
      · exact Nat.lt_irrefl _ (hs.settled.lt_size hmem)
    refine ⟨hworks, ⟨_, hassignments, ?_, ?_⟩, ?_, ?_⟩
    · intro d hd
      rw [Array.toList_append, mem_append] at hd
      rcases hd with hd | hd
      · exact hverdicts d hd
      · obtain ⟨task, htask, rfl⟩ := mem_map.mp hd
        exact Setup.isVerdict_of_mem_verdicts htask
    · rw [Array.toList_append, filterMap_append, hjudged, State.bodies_of_history ht,
        State.bodies_eq_of_isIn hr hall, Setup.filterMap_verdicts]
      rfl
    · rw [State.reportsOf_of_history ht,
        State.reportsOf_eq_of_isIn hr hall Kind.walked_not_unused, hs.unsaid]
      rfl
    · exact hsettled.cons ht hfunction (fun _ => rfl) hkind hnew

theorem State.pending_initial (next : Nat) : (State.initial next).Pending where
  works := by
    rintro i d ⟨entries, hq, hd⟩
    cases hq
    simp at hd
  verdicts := ⟨#[], rfl, by simp, rfl⟩
  unsaid := rfl
  settled := ⟨by simp [State.initial], .nil⟩

theorem Course.pending {vs : List Value} {next : Nat} (h : Course cfg n vs (State.initial next) t) :
    t.Pending := by
  have hs := State.pending_initial next
  obtain ⟨es, hes, hall⟩ := h.moves.history fun _ _ _ => trivial
  obtain ⟨entries, hentries, hverdicts, hjudged⟩ := hs.verdicts
  refine ⟨h.defers.works hs.works, ⟨entries, ?_, hverdicts, ?_⟩, ?_, ?_⟩
  · exact h.defers.assignments_eq.trans hentries
  · rw [hjudged, State.bodies_eq_of_isIn hes hall]
  · rw [State.reportsOf_eq_of_isIn hes hall Kind.walked_not_unused, hs.unsaid]
  · refine hs.settled.append hes (fun id kind hid => ?_) (fun e he => (hall e he).bodyOf?_eq) ?_
    · exact (h.grows.kindOf_eq id (State.lt_size_of_kindOf hid)).trans hid
    · intro e _ n id hid
      cases hid

theorem Strokes.pending (h : Strokes cfg .functions s t) (hs : s.Pending) : t.Pending := by
  induction h with
  | refl => exact hs
  | tail _ h ih => exact h.pending ih

end Strokes

end ScopeLint
