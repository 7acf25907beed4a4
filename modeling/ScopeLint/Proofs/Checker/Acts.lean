import ScopeLint.Proofs.Checker.Mirrors

/-! # Steps on names and messages

Everything that a check does between visits, apart from opening and closing scopes, guards and nodes
and from putting tasks off, leaves the shape of its state as it is. -/
namespace ScopeLint

/-- How a step may end: relations between the state before and the state after it, where it succeeds
and where it fails, that hold of sequences of such steps too. -/
structure Ending where
  ok : State → State → Prop
  fail : State → State → Prop
  refl : ∀ s, ok s s
  fail_refl : ∀ s, fail s s
  trans : ∀ {s t u}, ok s t → ok t u → ok s u
  fail_trans : ∀ {s t u}, ok s t → fail t u → fail s u

def Ending.same : Ending :=
  ⟨fun s t => t = s, fun s t => t = s, fun _ => rfl, fun _ => rfl, fun h k => k.trans h,
    fun h k => k.trans h⟩

namespace Check

variable {α β : Type} {w : Ending} {s t : State} {e : Fault} {f : α → Check β} {act x : Check α}
  {xs : List α} {a : α}

section Lands

variable {P Q R : State → Prop}

/-- The step leads from the state `s` to one of which `P` holds, or fails in one of which `Q` holds. -/
def Lands (P Q : State → Prop) (act : Check α) (s : State) : Prop :=
  match act s with
  | .ok _ t => P t
  | .error _ t => Q t

theorem lands_of (hok : ∀ a t, act s = .ok a t → P t) (hfail : ∀ e t, act s = .error e t → Q t) :
    Lands P Q act s := by
  rw [Lands]
  cases hr : act s with
  | ok a t => exact hok a t hr
  | error e t => exact hfail e t hr

theorem Lands.ok (h : Lands P Q act s) (ha : act s = .ok a t) : P t := by
  rwa [Lands, ha] at h

theorem Lands.fail (h : Lands P Q act s) (ha : act s = .error e t) : Q t := by
  rwa [Lands, ha] at h

theorem Lands.bind (hx : Lands P Q x s) (hf : ∀ a t, x s = .ok a t → P t → Lands R Q (f a) t) :
    Lands R Q (x >>= f) s := by
  rw [Lands, bind_apply]
  cases hr : x s with
  | error e t => exact hx.fail hr
  | ok a t => exact hf a t hr (hx.ok hr)

end Lands

/-- A step ends in such a way when it is taken in the state `s`. -/
abbrev EndsAt (w : Ending) (act : Check α) (s : State) : Prop := Lands (w.ok s) (w.fail s) act s

def Ends (w : Ending) (act : Check α) : Prop := ∀ s, EndsAt w act s

theorem EndsAt.bind (hx : EndsAt w x s)
    (hf : ∀ a t, x s = .ok a t → EndsAt w (f a) t) : EndsAt w (x >>= f) s := by
  refine Lands.bind hx fun a t hr ht => lands_of (fun b u hb => ?_) fun e u hb => ?_
  · exact w.trans ht ((hf a t hr).ok hb)
  · exact w.fail_trans ht ((hf a t hr).fail hb)

theorem Ends.ok (h : Ends w act) (ha : act s = .ok a t) : w.ok s t :=
  (h s).ok ha

theorem Ends.fail (h : Ends w act) (ha : act s = .error e t) : w.fail s t :=
  (h s).fail ha

theorem ends_of (hok : ∀ s a t, act s = .ok a t → w.ok s t)
    (hfail : ∀ s e t, act s = .error e t → w.fail s t) : Ends w act :=
  fun s => lands_of (hok s) (hfail s)

theorem Ends.imp {v : Ending} (h : Ends w act) (hok : ∀ {s t}, w.ok s t → v.ok s t)
    (hfail : ∀ {s t}, w.fail s t → v.fail s t) : Ends v act :=
  ends_of (fun _ _ _ ha => hok (h.ok ha)) fun _ _ _ ha => hfail (h.fail ha)

theorem ends_pure (a : α) : Ends w (pure a) := fun s => w.refl s

theorem ends_throw (e : Fault) : Ends w (throw e : Check α) := fun s => w.fail_refl s

theorem ends_get : Ends w get := fun s => w.refl s

theorem ends_lift (x : Except Fault α) : Ends w (lift x) := by
  cases x with
  | ok a => exact ends_pure a
  | error e => exact ends_throw e

theorem lift_apply_eq_ok {x : Except Fault α} : lift x s = .ok a t ↔ x = .ok a ∧ t = s := by
  cases x with
  | error e => simp [lift]
  | ok b => simp [lift, eq_comm]

theorem lift_bind_eq_ok {x : Except Fault α} {b : β} :
    (lift x >>= f) s = .ok b t ↔ ∃ a, x = .ok a ∧ f a s = .ok b t := by
  cases x with
  | error e => simp [lift]
  | ok a => simp [lift]

theorem lift_bind_eq_error {x : Except Fault α} : (lift x >>= f) s = .error e t ↔
      (x = .error e ∧ t = s) ∨ ∃ a, x = .ok a ∧ f a s = .error e t := by
  cases x with
  | error e' => simp [lift, eq_comm]
  | ok a => simp [lift]

theorem ends_modify {f : State → State} (h : ∀ s, w.ok s (f s)) : Ends w (modify f) := h

/-- A step whose answer the next step depends on. -/
theorem Ends.bind_of (hx : Ends w x)
    (hf : ∀ a, (∃ s t, x s = .ok a t) → Ends w (f a)) : Ends w (x >>= f) :=
  fun s => (hx s).bind fun a t hr => hf a ⟨s, t, hr⟩ t

theorem Ends.bind (hx : Ends w x) (hf : ∀ a, Ends w (f a)) : Ends w (x >>= f) :=
  hx.bind_of fun a _ => hf a

theorem ends_lift_bind {x : Except Fault α} (hf : ∀ a, x = .ok a → Ends w (f a)) :
    Ends w (lift x >>= f) := by
  cases x with
  | error e => exact ends_throw e
  | ok a => exact hf a rfl

theorem ends_forM {f : α → Check PUnit} (hf : ∀ a ∈ xs, Ends w (f a)) : Ends w (xs.forM f) := by
  induction xs with
  | nil => exact ends_pure _
  | cons x rest ih =>
    refine (hf x (by simp)).bind fun _ => ?_
    exact ih fun a ha => hf a (by simp [ha])

theorem ends_mapM (hf : ∀ a ∈ xs, Ends w (f a)) : Ends w (xs.mapM f) := by
  induction xs with
  | nil => exact ends_pure _
  | cons x rest ih =>
    rw [List.mapM_cons]
    refine (hf x (by simp)).bind fun b => ?_
    exact (ih fun a ha => hf a (by simp [ha])).bind fun _ => ends_pure _

/-- A step that only reads the state. -/
abbrev Reads (act : Check α) : Prop := Ends .same act

theorem Reads.ends (h : Reads act) : Ends w act :=
  h.imp (fun hs => hs ▸ w.refl _) fun hs => hs ▸ w.fail_refl _

theorem reads_current : Reads current := by
  refine ends_get.bind fun s => ?_
  split
  · exact ends_throw _
  · split
    · exact ends_pure _
    · exact ends_throw _

theorem reads_datum (v : Value) : Reads (datum v) := by
  unfold datum
  split
  · refine ends_get.bind fun s => ?_
    split <;> exact ends_pure _
  · exact ends_pure _

section Told

variable {x : Setup → Check α} {f : Setup → α → Check β} {cfg : Setup}

/-- A step ends in such a way whatever is ignored; and where it gets through, so does its like where
something else is ignored. -/
structure Told (w : Ending) (x : Setup → Check α) : Prop where
  ends : ∀ cfg, Ends w (x cfg)
  mirrors : ∀ {tell cfg kinds lines}, Retells tell cfg kinds lines [] →
    Mirrors tell (x cfg) (x (cfg.less kinds lines))

theorem Told.ok (h : Told w x) (ha : x cfg s = .ok a t) : w.ok s t := (h.ends cfg).ok ha

theorem Told.fail (h : Told w x) (ha : x cfg s = .error e t) : w.fail s t := (h.ends cfg).fail ha

theorem Told.imp {v : Ending} (h : Told w x) (hok : ∀ {s t}, w.ok s t → v.ok s t)
    (hfail : ∀ {s t}, w.fail s t → v.fail s t) : Told v x :=
  ⟨fun cfg => (h.ends cfg).imp hok hfail, h.mirrors⟩

theorem told_const (hact : Ends w act) (h : ∀ tell, Mirrors tell act act) : Told w fun _ => act :=
  ⟨fun _ => hact, fun _ => h _⟩

theorem told_pure (a : α) : Told w fun _ => pure a :=
  told_const (ends_pure a) fun _ => mirrors_pure a

theorem told_throw (e : Fault) : Told w fun _ => (throw e : Check α) :=
  told_const (ends_throw e) fun _ => mirrors_throw e _

theorem told_lift (x : Except Fault α) : Told w fun _ => lift x :=
  told_const (ends_lift x) fun _ => mirrors_lift x

theorem told_current : Told w fun _ => current :=
  told_const reads_current.ends fun _ => mirrors_current

theorem told_datum (v : Value) : Told w fun _ => datum v :=
  told_const (reads_datum v).ends fun _ => mirrors_datum v

theorem told_modify {f : State → State} (hok : ∀ s, w.ok s (f s))
    (h : ∀ tell s, f (s.retold tell) = (f s).retold tell) : Told w fun _ => modify f :=
  told_const (ends_modify hok) fun tell => mirrors_modify (h tell)

theorem Told.bind (hx : Told w x) (hf : ∀ a, Told w (f · a)) : Told w fun cfg => x cfg >>= f cfg :=
  ⟨fun cfg => (hx.ends cfg).bind fun a => (hf a).ends cfg,
    fun h => (hx.mirrors h).bind fun a => (hf a).mirrors h⟩

theorem told_get {f : Setup → State → Check β} (hf : ∀ s, Told w (f · s))
    (h : ∀ tell cfg s, f cfg (s.retold tell) = f cfg s) : Told w fun cfg => get >>= f cfg := by
  refine ⟨fun cfg => ends_get.bind fun s => (hf s).ends cfg, fun hr => mirrors_get fun s => ?_⟩
  rw [h]
  exact (hf s).mirrors hr

theorem told_ite {c : Setup → Prop} [∀ cfg, Decidable (c cfg)] {y : Setup → Check α}
    (hc : ∀ cfg kinds lines, c (cfg.less kinds lines) ↔ c cfg) (hx : Told w x) (hy : Told w y) :
    Told w fun cfg => if c cfg then x cfg else y cfg := by
  refine ⟨fun cfg => ?_, fun h => ?_⟩
  · split
    · exact hx.ends cfg
    · exact hy.ends cfg
  · simp only [hc]
    exact mirrors_ite (hx.mirrors h) (hy.mirrors h)

theorem told_forM {f : Setup → α → Check PUnit} (xs : List α) (h : ∀ a, Told w (f · a)) :
    Told w fun cfg => xs.forM (f cfg) :=
  ⟨fun cfg => ends_forM fun a _ => (h a).ends cfg,
    fun hr => mirrors_forM xs fun a => (h a).mirrors hr⟩

end Told

end Check

variable {α : Type} {s t u : State} {f : Scope → Scope} {kinds : List Kind}

/-- Two states that differ at most in messages, trace, moves and record, and in what the scopes
hold. -/
structure State.Alike (s t : State) : Prop where
  size_eq : t.scopes.size = s.scopes.size
  kindOf_eq : ∀ id, t.kindOf id = s.kindOf id
  stack_eq : t.stack = s.stack
  dead_eq : t.dead = s.dead
  functions_eq : t.functions = s.functions
  assignments_eq : t.assignments = s.assignments
  borrowed_eq : t.borrowed = s.borrowed
  guards_eq : t.guards = s.guards
  depth_eq : t.depth = s.depth
  shift_eq : t.shift = s.shift
  marks_eq : t.marks = s.marks
  nextNode_eq : t.nextNode = s.nextNode
  futures : t.futuresAllowed = true → s.futuresAllowed = true

namespace State.Alike

theorem refl (s : State) : s.Alike s :=
  ⟨rfl, fun _ => rfl, rfl, rfl, rfl, rfl, rfl, rfl, rfl, rfl, rfl, rfl, id⟩

theorem trans (h : s.Alike t) (k : t.Alike u) : s.Alike u where
  size_eq := k.size_eq.trans h.size_eq
  kindOf_eq := fun id => (k.kindOf_eq id).trans (h.kindOf_eq id)
  stack_eq := k.stack_eq.trans h.stack_eq
  dead_eq := k.dead_eq.trans h.dead_eq
  functions_eq := k.functions_eq.trans h.functions_eq
  assignments_eq := k.assignments_eq.trans h.assignments_eq
  borrowed_eq := k.borrowed_eq.trans h.borrowed_eq
  guards_eq := k.guards_eq.trans h.guards_eq
  depth_eq := k.depth_eq.trans h.depth_eq
  shift_eq := k.shift_eq.trans h.shift_eq
  marks_eq := k.marks_eq.trans h.marks_eq
  nextNode_eq := k.nextNode_eq.trans h.nextNode_eq
  futures := h.futures ∘ k.futures

end State.Alike

def Ending.alike : Ending := ⟨State.Alike, State.Alike, .refl, .refl, .trans, .trans⟩

/-- Two states that are alike and where all nodes are at the same places. -/
structure State.Fixed (s t : State) : Prop extends State.Alike s t where
  moved_eq : t.moved = s.moved

theorem State.Fixed.refl (s : State) : s.Fixed s := ⟨.refl s, rfl⟩

theorem State.Fixed.trans (h : s.Fixed t) (k : t.Fixed u) : s.Fixed u :=
  ⟨h.toAlike.trans k.toAlike, k.moved_eq.trans h.moved_eq⟩

def Ending.fixed : Ending := ⟨State.Fixed, State.Fixed, .refl, .refl, .trans, .trans⟩

namespace Check

abbrev Mild (act : Check α) : Prop := Ends .alike act

abbrev Steady (act : Check α) : Prop := Ends .fixed act

theorem Steady.mild {act : Check α} (h : Steady act) : Mild act :=
  h.imp State.Fixed.toAlike State.Fixed.toAlike

theorem alike_modify {id : ScopeId}
    (hf : ∀ scope, s.scope? id = some scope → (f scope).kind = scope.kind) :
    s.Alike { s with scopes := s.scopes.modify id f } := by
  refine ⟨by simp, fun other => ?_, rfl, rfl, rfl, rfl, rfl, rfl, rfl, rfl, rfl, rfl, fun h => h⟩
  simp only [State.kindOf, State.scope?, Array.getElem?_modify]
  split
  · rename_i hid
    subst hid
    cases hs : s.scopes[id]? with
    | none => rfl
    | some scope => simp [hf scope hs]
  · rfl

theorem steady_updateScope (id : ScopeId) (hf : ∀ scope, (f scope).kind = scope.kind) :
    Steady (updateScope id f) :=
  ends_modify fun _ => ⟨alike_modify fun scope _ => hf scope, rfl⟩

theorem steady_record (e : Event) : Steady (record e) :=
  ends_modify fun _ =>
    ⟨⟨rfl, fun _ => rfl, rfl, rfl, rfl, rfl, rfl, rfl, rfl, rfl, rfl, rfl, id⟩, rfl⟩

theorem current_eq_ok {found : ScopeId × Scope} (h : current s = .ok found t) :
    t = s ∧ (∃ rest, s.stack = found.1 :: rest) ∧ s.scope? found.1 = some found.2 := by
  rw [current, bind_apply, get_apply] at h
  dsimp only at h
  cases hstack : s.stack with
  | nil =>
    rw [hstack] at h
    cases h
  | cons id rest =>
    rw [hstack] at h
    dsimp only at h
    cases hs : s.scope? id with
    | none =>
      rw [hs] at h
      cases h
    | some scope =>
      rw [hs] at h
      cases h
      exact ⟨rfl, ⟨rest, rfl⟩, hs⟩

theorem current_bind_eq_ok {f : ScopeId × Scope → Check α} {a : α} (h : (current >>= f) s = .ok a t) :
    ∃ top rest scope, s.stack = top :: rest ∧
      s.scope? top = some scope ∧ f (top, scope) s = .ok a t := by
  obtain ⟨⟨top, scope⟩, r, hcurrent, hrest⟩ := bind_apply_eq_ok.mp h
  obtain ⟨rfl, ⟨rest, hstack⟩, hscope⟩ := current_eq_ok hcurrent
  exact ⟨top, rest, scope, hstack, hscope, hrest⟩

end Check

/-- The kinds that come up while trees are walked. -/
def Kind.walked : List Kind :=
  [undefinedName, redefinedWhileUnused, redefinedInListComp, undefinedLocal, importShadowedByLoopVar,
   importStarUsed, tooManyArguments, unexpectedArgument, multipleValues, tooFewArguments,
   needKwOnlyArgument, duplicateArgument, lateFutureImport, bareExcept, doctestSyntaxError]

/-- The kinds that come up there, future imports that are too late apart. -/
def Kind.acted : List Kind :=
  [undefinedName, redefinedWhileUnused, redefinedInListComp, undefinedLocal, importShadowedByLoopVar,
   importStarUsed, tooManyArguments, unexpectedArgument, multipleValues, tooFewArguments,
   needKwOnlyArgument, duplicateArgument, bareExcept, doctestSyntaxError]

/-- Those of them that do not tell of names that are not bound. -/
def Kind.besides : List Kind :=
  [redefinedWhileUnused, redefinedInListComp, importShadowedByLoopVar, importStarUsed,
   tooManyArguments, unexpectedArgument, multipleValues, tooFewArguments, needKwOnlyArgument,
   duplicateArgument, bareExcept, doctestSyntaxError]

theorem Kind.acted_subset : acted ⊆ walked := by simp [acted, walked]

theorem Kind.besides_subset : besides ⊆ acted := by simp [besides, acted]

/-- Whether an event only says something, where diagnostics are of the given kinds. -/
def Event.IsNote (kinds : List Kind) : Event → Prop
  | .compared _ _ _ => True
  | .reported k _ => k ∈ kinds
  | _ => False

theorem Event.IsNote.mono {kinds more : List Kind} {e : Event} (h : e.IsNote kinds)
    (hsub : kinds ⊆ more) : e.IsNote more := by
  cases e with
  | reported k args => exact hsub h
  | _ => exact h

/-- Two states that differ at most in messages and in notes that were put on record. -/
structure State.Says (kinds : List Kind) (s t : State) : Prop where
  frame : t = { s with messages := t.messages, history := t.history }
  notes : ∃ es, t.history = es ++ s.history ∧ ∀ e ∈ es, e.IsNote kinds

namespace State.Says

theorem refl (s : State) : s.Says kinds s := ⟨rfl, [], rfl, by simp⟩

section

variable (h : s.Says kinds t)

include h

theorem trans (k : t.Says kinds u) : s.Says kinds u := by
  obtain ⟨es, hes, hnotes⟩ := h.notes
  obtain ⟨more, hmore, hmoreNotes⟩ := k.notes
  refine ⟨?_, more ++ es, ?_, fun e he => ?_⟩
  · rw [k.frame, h.frame]
  · rw [hmore, hes, List.append_assoc]
  · exact (List.mem_append.mp he).elim (hmoreNotes e) (hnotes e)

theorem alike : s.Alike t := by
  rw [h.frame]
  exact ⟨rfl, fun _ => rfl, rfl, rfl, rfl, rfl, rfl, rfl, rfl, rfl, rfl, rfl, id⟩

theorem mono {more : List Kind} (hsub : kinds ⊆ more) : s.Says more t := by
  obtain ⟨es, hes, hnotes⟩ := h.notes
  exact ⟨h.frame, es, hes, fun e he => (hnotes e he).mono hsub⟩

theorem scopes_eq : t.scopes = s.scopes := by rw [h.frame]

theorem moved_eq : t.moved = s.moved := by rw [h.frame]

theorem fixed : s.Fixed t := ⟨h.alike, h.moved_eq⟩

end

theorem walked (h : s.Says Kind.besides t) : s.Says Kind.walked t :=
  h.mono (List.Subset.trans Kind.besides_subset Kind.acted_subset)

end State.Says

/-- The entries of a scope; none if there is no such scope. -/
def State.entriesOf (s : State) (id : ScopeId) : List Entry :=
  ((s.scope? id).map (·.entries)).getD []

/-- Two states that are alike, whose scopes hold the same and where nothing but notes has been put on
record. -/
structure State.Still (s t : State) : Prop extends State.Alike s t where
  entriesOf_eq : ∀ id, t.entriesOf id = s.entriesOf id
  notes : ∃ es, t.history = es ++ s.history ∧ ∀ e ∈ es, e.IsNote Kind.acted

namespace State.Still

theorem refl (s : State) : s.Still s := ⟨.refl s, fun _ => rfl, [], rfl, by simp⟩

theorem trans (h : s.Still t) (k : t.Still u) : s.Still u := by
  obtain ⟨es, hes, hnotes⟩ := h.notes
  obtain ⟨more, hmore, hmoreNotes⟩ := k.notes
  refine ⟨h.toAlike.trans k.toAlike, fun id => ?_, more ++ es, ?_, fun e he => ?_⟩
  · exact (k.entriesOf_eq id).trans (h.entriesOf_eq id)
  · rw [hmore, hes, List.append_assoc]
  · exact (List.mem_append.mp he).elim (hmoreNotes e) (hnotes e)

end State.Still

theorem State.Says.still (h : s.Says Kind.acted t) : s.Still t where
  toAlike := h.alike
  entriesOf_eq := fun id => by simp [State.entriesOf, State.scope?, h.scopes_eq]
  notes := h.notes

/-- Two states that differ at most in what the scopes say beside their entries, in messages, trace and
notes. -/
structure State.Quiet (s t : State) : Prop extends State.Still s t where
  moved_eq : t.moved = s.moved

theorem State.Quiet.refl (s : State) : s.Quiet s := ⟨.refl s, rfl⟩

theorem State.Quiet.trans (h : s.Quiet t) (k : t.Quiet u) : s.Quiet u :=
  ⟨h.toStill.trans k.toStill, k.moved_eq.trans h.moved_eq⟩

theorem State.Says.quiet (h : s.Says Kind.acted t) : s.Quiet t :=
  ⟨h.still, h.moved_eq⟩

theorem State.Quiet.fixed (h : s.Quiet t) : s.Fixed t := ⟨h.toAlike, h.moved_eq⟩

def Ending.speech (kinds : List Kind) : Ending :=
  ⟨State.Says kinds, State.Says kinds, .refl, .refl, .trans, .trans⟩

def Ending.still : Ending := ⟨State.Still, State.Still, .refl, .refl, .trans, .trans⟩

def Ending.quiet : Ending := ⟨State.Quiet, State.Quiet, .refl, .refl, .trans, .trans⟩

namespace Check

variable {k : Kind} {act : Check α}

abbrev Calm (act : Check α) : Prop := Ends .still act

abbrev Quiet (act : Check α) : Prop := Ends .quiet act

theorem Quiet.calm (h : Quiet act) : Calm act := h.imp State.Quiet.toStill State.Quiet.toStill

theorem Quiet.steady (h : Quiet act) : Steady act := h.imp State.Quiet.fixed State.Quiet.fixed

theorem still_modify {id : ScopeId} (hf : ∀ scope, s.scope? id = some scope →
      (f scope).kind = scope.kind ∧ (f scope).entries = scope.entries) :
    s.Still { s with scopes := s.scopes.modify id f } := by
  refine ⟨alike_modify fun scope hscope => (hf scope hscope).1, fun other => ?_, [], rfl, by simp⟩
  simp only [State.entriesOf, State.scope?, Array.getElem?_modify]
  split
  · rename_i hid
    subst hid
    cases hs : s.scopes[id]? with
    | none => rfl
    | some scope => simp [(hf scope hs).2]
  · rfl

theorem quiet_updateScope (id : ScopeId)
    (hf : ∀ scope, (f scope).kind = scope.kind ∧ (f scope).entries = scope.entries) :
    Quiet (updateScope id f) :=
  ends_modify fun _ => ⟨still_modify fun scope _ => hf scope, rfl⟩

/-- A change of what is neither a scope nor on record. -/
theorem still_of_eq (halike : s.Alike t) (hscopes : t.scopes = s.scopes)
    (hhistory : t.history = s.history) : s.Still t :=
  ⟨halike, fun id => by simp [State.entriesOf, State.scope?, hscopes], [], hhistory, by simp⟩

abbrev Speaks (kinds : List Kind) (act : Check α) : Prop := Ends (.speech kinds) act

theorem Speaks.mono (h : Speaks kinds act) {more : List Kind} (hsub : kinds ⊆ more) :
    Speaks more act :=
  h.imp (·.mono hsub) (·.mono hsub)

theorem Speaks.calm (h : Speaks Kind.acted act) : Calm act :=
  h.imp State.Says.still State.Says.still

theorem Speaks.steady (h : Speaks kinds act) : Steady act :=
  h.imp State.Says.fixed State.Says.fixed

theorem Told.steady {x : Setup → Check α} (h : Told (.speech kinds) x) : Told .fixed x :=
  h.imp State.Says.fixed State.Says.fixed

theorem Told.fixed {x : Setup → Check α} (h : Told .quiet x) : Told .fixed x :=
  h.imp State.Quiet.fixed State.Quiet.fixed

theorem speaks_record (e : Event) (h : e.IsNote kinds) : Speaks kinds (record e) :=
  ends_modify fun _ => ⟨rfl, [e], rfl, by simpa using h⟩

theorem told_differentForks (n : Node) (v : Value) :
    Told (.speech kinds) (differentForks · n v) := by
  unfold differentForks
  split
  · refine ⟨fun cfg => ?_, fun _ => mirrors_get fun s => ?_⟩
    · refine ends_get.bind fun s => (ends_lift _).bind fun apart => ?_
      exact (speaks_record (.compared n _ apart) trivial).bind fun _ => ends_pure _
    · rw [State.retold_differentForks]
      exact (mirrors_lift _).bind fun apart => (mirrors_record _ rfl).bind fun _ => mirrors_pure _
  · exact told_pure _

theorem speaks_reportWith (cfg : Setup) (hk : k ∈ kinds) (args : List Datum) (named : Named) :
    Speaks kinds (reportWith cfg k args named) := by
  unfold reportWith
  dsimp only
  split
  · exact ends_throw _
  · refine (speaks_record (.reported k args) hk).bind fun _ => (ends_lift _).bind fun ignored => ?_
    split
    · refine (ends_lift _).bind fun d => (ends_lift _).bind fun hidden => ?_
      split
      · exact ends_modify fun s => ⟨rfl, [], rfl, by simp⟩
      · exact ends_pure _
    · exact ends_pure _

theorem told_report (hk : k ∈ kinds) (subject : Value) (args : List Datum) :
    Told (.speech kinds) (report · k subject args) :=
  (told_datum subject).bind fun d =>
    ⟨fun cfg => speaks_reportWith cfg hk (d :: args) [], fun h => h k (d :: args)⟩

theorem told_reportHiddenIn (n : Node) (key : Datum.Key) (b : Binding) (id : ScopeId) :
    Told (.speech Kind.besides) (reportHiddenIn · n key b id) := by
  refine told_get (fun s => ?_) fun _ _ _ => rfl
  split
  · split
    · refine (told_differentForks n _).bind fun apart => ?_
      split
      · exact told_pure _
      · refine (told_datum _).bind fun d => ?_
        exact (told_report (by simp [Kind.besides]) _ _).bind fun _ => told_pure _
    · exact told_pure _
  · exact told_pure _

theorem told_reportHidden (n : Node) (key : Datum.Key) (b : Binding) (ids : List ScopeId) :
    Told (.speech Kind.besides) (reportHidden · n key b ids) := by
  induction ids with
  | nil => exact told_pure _
  | cons id rest ih =>
    exact (told_reportHiddenIn n key b id).bind fun hidden => ih.bind fun _ => told_pure _

theorem told_reportListComp (n : Node) (b : Binding) (existing : Option Binding) :
    Told (.speech Kind.besides) (reportListComp · n b existing) := by
  unfold reportListComp
  split
  · refine told_get (fun s => ?_) fun _ _ _ => rfl
    split
    · refine (told_differentForks n _).bind fun apart => ?_
      split
      · exact (told_datum _).bind fun d => told_report (by simp [Kind.besides]) _ _
      · exact told_pure _
    · exact told_pure _
  · exact told_pure _

theorem told_keptDefinition? (n : Node) (existing : Option Binding) :
    Told (.speech kinds) (keptDefinition? · n existing) := by
  unfold keptDefinition?
  split
  · split
    · refine (told_differentForks n _).bind fun apart => ?_
      split <;> exact told_pure _
    · exact told_pure _
  · exact told_pure _

theorem told_reportRebinding (n : Node) (key : Datum.Key) (b : Binding) (kind : ScopeKind)
    (existing : Option Binding) :
    Told (.speech Kind.besides) (reportRebinding · n key b kind existing) := by
  have hrest (hidden : Bool) : Told (.speech Kind.besides)
      (fun cfg => do if !hidden then reportListComp cfg n b existing) := by
    split
    · exact told_reportListComp n b existing
    · exact told_pure _
  unfold reportRebinding
  dsimp only
  split
  · refine told_get (fun s => ?_) fun _ _ _ => rfl
    exact (told_reportHidden n key b s.stack).bind hrest
  · exact hrest false

theorem told_reportUsedBefore (top : ScopeId) (scope : Scope) (key : Datum.Key) (name : Datum) :
    Told (.speech Kind.acted) (reportUsedBefore · top scope key name) := by
  unfold reportUsedBefore
  split
  · refine told_get (fun s => ?_) fun _ _ _ => rfl
    split
    · exact (told_datum _).bind fun d => told_report (by simp [Kind.acted]) _ _
    · exact told_pure _
  · exact told_pure _

theorem problemReport_mem (name : Datum) (problem : CallProblem) :
    (problemReport name problem).1 ∈ Kind.besides := by
  cases problem <;> simp [problemReport, Kind.besides]

theorem told_checkCallee (n : Node) : Told (.speech Kind.besides) (checkCallee · n) := by
  refine (told_lift _).bind fun function => ?_
  split
  · refine told_get (fun s => ?_) fun _ _ _ => rfl
    refine (told_lift _).bind fun visible => (told_lift _).bind fun name => ?_
    refine (told_lift _).bind fun key => ?_
    split
    · refine (told_lift _).bind fun problem => ?_
      split
      · exact told_report (problemReport_mem _ _) _ _
      · exact told_pure _
    · exact told_pure _
  · exact told_pure _

theorem told_reportShadowing (n : Node) (name : Datum) :
    Told (.speech Kind.besides) (reportShadowing · n name) := by
  refine told_current.bind fun ⟨top, scope⟩ => (told_lift _).bind fun key => ?_
  split
  · split
    · exact (told_datum _).bind fun d => told_report (by simp [Kind.besides]) _ _
    · exact told_pure _
  · exact told_pure _

theorem told_reportUnusedAssignments (hk : .unusedVariable ∈ kinds) :
    Told (.speech kinds) reportUnusedAssignments := by
  refine told_current.bind fun ⟨top, scope⟩ => ?_
  dsimp only
  split
  · exact told_forM _ fun e => told_report hk _ _
  · exact told_throw _

theorem told_reportReturns (hk : .returnInGenerator ∈ kinds) (n : Node) :
    Told (.speech kinds) (reportReturns · n) := by
  refine (told_lift _).bind fun generator => ?_
  split
  · refine (told_lift _).bind fun found => ?_
    split
    · exact told_report hk _ _
    · exact told_pure _
  · exact told_pure _

theorem told_anyReport (k : Kind) (subject : Value) (args : List Datum) :
    Told .fixed (report · k subject args) :=
  (told_report (List.mem_singleton.mpr rfl) subject args).steady

theorem told_updateScope (id : ScopeId) (hf : ∀ scope, (f scope).kind = scope.kind) :
    Told .fixed fun _ => updateScope id f :=
  told_const (steady_updateScope id hf) fun _ => mirrors_updateScope id f

theorem told_record (e : Event) (he : e.isReport = false) : Told .fixed fun _ => record e :=
  told_const (steady_record e) fun _ => mirrors_record e he

theorem told_load (v : Value) : Told .fixed (load · v) := by
  unfold load
  split
  · exact told_pure _
  · refine told_get (fun s => ?_) fun _ _ _ => rfl
    refine (told_lift _).bind fun visible => (told_lift _).bind fun key => ?_
    split
    · refine told_current.bind fun ⟨top, scope⟩ => ?_
      refine (told_updateScope _ ?_).bind fun _ => told_record _ rfl
      exact fun _ => rfl
    · refine told_ite (fun _ _ _ => Iff.rfl) (told_pure _) ?_
      refine told_ite (fun _ _ _ => Iff.rfl) (told_pure _) ((told_lift _).bind fun guarded => ?_)
      split
      · exact told_anyReport _ _ _
      · exact told_pure _

theorem told_place (n : Node) (key : Datum.Key) (b : Binding) (top : ScopeId)
    (existing : Option Binding) : Told .fixed (place · n key b top existing) := by
  have hkept : Told (.speech []) (keptDefinition? · n existing) := told_keptDefinition? n existing
  refine hkept.steady.bind fun kept => ?_
  split
  · refine (told_datum _).bind fun d => (told_anyReport _ _ _).bind fun _ => ?_
    exact told_record _ rfl
  · refine (told_updateScope _ ?_).bind fun _ => told_record _ rfl
    exact fun _ => rfl

theorem told_bind (n : Node) (b : Binding) (reportsHidden : Bool) :
    Told .fixed (bind · n b reportsHidden) := by
  refine told_current.bind fun ⟨top, scope⟩ => (told_lift _).bind fun key => ?_
  dsimp only
  split
  · exact (told_reportRebinding n key b _ _).steady.bind fun _ => told_place n key b top _
  · exact told_place n key b top _

theorem told_store (n : Node) : Told .fixed (store · n) := by
  unfold store
  split
  · exact told_pure _
  · refine told_current.bind fun ⟨top, scope⟩ => (told_lift _).bind fun key => ?_
    refine (told_reportUsedBefore top scope key _).steady.bind fun _ => ?_
    refine told_get (fun s => ?_) fun _ _ _ => rfl
    exact (told_lift _).bind fun found => told_bind n _ true

theorem told_delete (n : Node) : Told .fixed (delete · n) := by
  unfold delete
  split
  · exact told_pure _
  · refine told_current.bind fun found => (told_lift _).bind fun key => ?_
    split
    · exact told_updateScope _ fun _ => rfl
    · split
      · refine (told_updateScope _ ?_).bind fun _ => told_record _ rfl
        exact fun _ => rfl
      · exact told_anyReport _ _ _

theorem steady_bind (cfg : Setup) (n : Node) (b : Binding) (reportsHidden : Bool) :
    Steady (bind cfg n b reportsHidden) :=
  (told_bind n b reportsHidden).ends cfg

theorem mild_bind (cfg : Setup) (n : Node) (b : Binding) (reportsHidden : Bool) :
    Mild (bind cfg n b reportsHidden) :=
  (steady_bind cfg n b reportsHidden).mild

theorem declareGlobal_eq_ok {scope declared : Scope} {name : Datum}
    (h : scope.declareGlobal name = .ok declared) :
    declared.kind = scope.kind ∧ declared.entries = scope.entries := by
  obtain ⟨key, -, h⟩ := ScopeLint.bind_eq_ok.mp h
  cases h
  split <;> exact ⟨rfl, rfl⟩

theorem quiet_declareGlobal (name : Datum) : Quiet (declareGlobal name) := by
  intro s
  refine (reads_current.ends s).bind fun ⟨top, scope⟩ t hcurrent => ?_
  obtain ⟨rfl, -, hscope⟩ := current_eq_ok hcurrent
  dsimp only [EndsAt, Lands]
  cases hd : scope.declareGlobal name with
  | error e => exact .refl _
  | ok declared =>
    refine ⟨still_modify fun found hfound => ?_, rfl⟩
    obtain rfl := Option.some.inj (hscope.symm.trans hfound)
    exact declareGlobal_eq_ok hd

theorem told_ruleGlobal (n : Node) : Told .quiet fun _ => ruleGlobal n := by
  refine told_current.bind fun ⟨top, scope⟩ => ?_
  dsimp only
  split
  · refine (told_lift _).bind fun names => told_forM _ fun name => ?_
    refine told_const (quiet_declareGlobal _) fun _ => mirrors_current.bind fun _ => ?_
    exact (mirrors_lift _).bind fun _ => mirrors_updateScope _ _
  · exact told_pure _

theorem told_noteLocals (n : Node) : Told .quiet fun _ => noteLocals n := by
  refine (told_lift _).bind fun name => ?_
  split
  · refine told_current.bind fun ⟨top, scope⟩ => ?_
    dsimp only
    split
    · refine told_get (fun s => ?_) fun _ _ _ => rfl
      split
      · exact told_const (quiet_updateScope _ fun _ => ⟨rfl, rfl⟩) fun _ => mirrors_updateScope _ _
      · exact told_pure _
    · exact told_pure _
  · exact told_pure _

theorem told_importStar (n : Node) (module : Value) : Told .quiet (importStar · n module) := by
  refine told_current.bind fun ⟨top, scope⟩ => ?_
  dsimp only
  refine (told_const (quiet_updateScope _ ?_) fun _ => mirrors_updateScope _ _).bind fun _ => ?_
  · exact fun _ => ⟨rfl, rfl⟩
  · exact (told_datum module).bind fun _ => (told_report (by simp [Kind.acted]) _ _).imp
      State.Says.quiet State.Says.quiet

theorem told_traceLine (line : String) : Told .quiet (traceLine · line) := by
  refine told_ite (fun _ _ _ => Iff.rfl) (told_modify (fun _ => ⟨still_of_eq ?_ rfl rfl, rfl⟩) ?_)
    (told_pure _)
  · exact ⟨rfl, fun _ => rfl, rfl, rfl, rfl, rfl, rfl, rfl, rfl, rfl, rfl, rfl, id⟩
  · exact fun _ _ => rfl

theorem traceLine_frame {cfg : Setup} {line : String} (h : traceLine cfg line s = .ok () t) :
    ∃ trace, t = { s with trace := trace } := by
  unfold traceLine at h
  split at h <;> cases h <;> exact ⟨_, rfl⟩

/-- From here on no future import may stand. -/
theorem told_lateImports : Told .quiet fun _ => modify fun s => { s with futuresAllowed := false } := by
  refine told_modify (fun _ => ⟨still_of_eq ?_ rfl rfl, rfl⟩) fun _ _ => rfl
  exact ⟨rfl, fun _ => rfl, rfl, rfl, rfl, rfl, rfl, rfl, rfl, rfl, rfl, rfl, nofun⟩

theorem told_closeFutures (v : Value) : Told .quiet fun _ => closeFutures v := by
  refine told_get (fun s => ?_) fun _ _ _ => rfl
  split
  · split
    · refine (told_lift _).bind fun docstring => ?_
      split
      · exact told_lateImports
      · exact told_pure _
    · exact told_pure _
  · exact told_pure _

theorem told_moveNode (n : Node) (p : Position) : Told .still fun _ => moveNode n p := by
  refine told_modify (fun _ => still_of_eq ?_ rfl rfl) fun _ _ => rfl
  exact ⟨rfl, fun _ => rfl, rfl, rfl, rfl, rfl, rfl, rfl, rfl, rfl, rfl, rfl, id⟩

theorem told_shiftNode (n : Node) : Told .still fun _ => shiftNode n := by
  refine told_get (fun s => ?_) fun _ _ _ => rfl
  split
  · split
    · exact told_pure _
    · refine (told_lift _).bind fun line => ?_
      split
      · exact told_moveNode n _
      · exact (told_moveNode n _).bind fun _ => told_throw _
  · exact told_pure _

end Check

/-- What a check does to names and messages in between. -/
inductive Act where
  | load (v : Value)
  | store (n : Node)
  | delete (n : Node)
  | bind (n : Node) (b : Binding) (reportsHidden : Bool)
  | globals (n : Node)
  | locals (n : Node)
  | star (n : Node) (module : Value)
  | callee (n : Node)
  | shadowing (n : Node) (name : Datum)
  | lateImports
  | report (k : Kind) (subject : Value) (args : List Datum)

namespace Act

def run (cfg : Setup) : Act → Check Unit
  | .load v => Check.load cfg v
  | .store n => Check.store cfg n
  | .delete n => Check.delete cfg n
  | .bind n b reportsHidden => Check.bind cfg n b reportsHidden
  | .globals n => Check.ruleGlobal n
  | .locals n => Check.noteLocals n
  | .star n module => Check.importStar cfg n module
  | .callee n => Check.checkCallee cfg n
  | .shadowing n name => Check.reportShadowing cfg n name
  | .lateImports => modify fun s => { s with futuresAllowed := false }
  | .report k subject args => Check.report cfg k subject args

theorem run_told (a : Act) : Check.Told .fixed (run · a) := by
  cases a with
  | load v => exact Check.told_load v
  | store n => exact Check.told_store n
  | delete n => exact Check.told_delete n
  | bind n b reportsHidden => exact Check.told_bind n b reportsHidden
  | globals n => exact (Check.told_ruleGlobal n).fixed
  | locals n => exact (Check.told_noteLocals n).fixed
  | star n module => exact (Check.told_importStar n module).fixed
  | callee n => exact (Check.told_checkCallee n).steady
  | shadowing n name => exact (Check.told_reportShadowing n name).steady
  | lateImports => exact Check.told_lateImports.fixed
  | report k subject args => exact Check.told_anyReport k subject args

theorem run_steady (cfg : Setup) (a : Act) : Check.Steady (a.run cfg) := a.run_told.ends cfg

theorem run_mild (cfg : Setup) (a : Act) : Check.Mild (a.run cfg) := (a.run_steady cfg).mild

end Act

end ScopeLint
