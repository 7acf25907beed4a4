import ScopeLint.Checker.Deferred
import ScopeLint.Proofs.Effects

/-! # Two runs with different messages

Messages are written and never read, and what is ignored is looked at where a message is written
and nowhere else. So every step of a check that gets through has its like in a check that ignores
something else: it starts from the same state with other messages, gives the same answer, and ends in
the same state with other messages. -/
namespace ScopeLint

def Event.isReport : Event → Bool
  | .reported _ _ => true
  | _ => false

/-- Other messages in the place of those that are there. They may depend on the reports on record, but
on nothing else there. -/
structure Retelling where
  messages : List Event → Array Diagnostic → Array Diagnostic
  messages_cons : ∀ {e : Event} (history : List Event) (told : Array Diagnostic),
    e.isReport = false → messages (e :: history) told = messages history told

def Retelling.filter (keep : Diagnostic → Bool) : Retelling :=
  ⟨fun _ => (·.filter keep), fun _ _ _ => rfl⟩

def State.retold (tell : Retelling) (s : State) : State :=
  { s with messages := tell.messages s.history s.messages }

namespace State

variable (tell : Retelling) (s : State)

@[simp] theorem retold_stack : (s.retold tell).stack = s.stack := rfl

@[simp] theorem retold_scope? : (s.retold tell).scope? = s.scope? := rfl

@[simp] theorem retold_position? : (s.retold tell).position? = s.position? := rfl

@[simp] theorem retold_docstringOf : (s.retold tell).docstringOf = s.docstringOf := rfl

/-- Where two climbs meet depends on the marks of the nodes that they go through. -/
theorem meetWithin_congr {s t : State} (stop : Node) (fuel : Nat) {ls rs : List Node}
    (hls : ∀ a ∈ ls, t.mark? a = s.mark? a) (hrs : ∀ a ∈ rs, t.mark? a = s.mark? a) :
    t.meetWithin stop fuel ls rs = s.meetWithin stop fuel ls rs := by
  induction fuel generalizing ls rs with
  | zero => cases ls <;> cases rs <;> rfl
  | succ fuel ih =>
    cases ls with
    | nil => rfl
    | cons l ls =>
      cases rs with
      | nil => rfl
      | cons r rs =>
        obtain ⟨hl, hls'⟩ := List.forall_mem_cons.mp hls
        obtain ⟨hr, hrs'⟩ := List.forall_mem_cons.mp hrs
        rw [meetWithin, meetWithin, level, level, level, level, hl, hr, ih hls' hrs, ih hls hrs',
          ih hls' hrs']

@[simp] theorem retold_commonAncestor : (s.retold tell).commonAncestor = s.commonAncestor := by
  funext stop l r
  exact meetWithin_congr stop _ (fun _ _ => rfl) fun _ _ => rfl

@[simp] theorem retold_onFork : (s.retold tell).onFork = s.onFork := by
  funext root parent l r branch
  simp only [onFork, descendantOf, retold_commonAncestor]

@[simp] theorem retold_differentForks : (s.retold tell).differentForks = s.differentForks := by
  funext cfg l r
  simp only [differentForks, retold_commonAncestor, retold_onFork]

@[simp] theorem retold_queue : (s.retold tell).queue = s.queue := by
  funext q
  cases q <;> rfl

@[simp] theorem retold_shift : (s.retold tell).shift = s.shift := rfl

@[simp] theorem retold_dead : (s.retold tell).dead = s.dead := rfl

end State

def Setup.less (cfg : Setup) (kinds lines : Datum) : Setup :=
  { cfg with ignored := kinds, ignoredLines := lines }

@[simp] theorem Setup.less_compile (cfg : Setup) (kinds lines : Datum) :
    (cfg.less kinds lines).compile = cfg.compile := rfl

@[simp] theorem Setup.less_filename (cfg : Setup) (kinds lines : Datum) :
    (cfg.less kinds lines).filename = cfg.filename := rfl

@[simp] theorem Setup.less_verbose (cfg : Setup) (kinds lines : Datum) :
    (cfg.less kinds lines).verbose = cfg.verbose := rfl

namespace Check

variable {α β : Type} {tell : Retelling}

/-- Where `x` gets through, so does `y`, from the state with other messages. -/
def Mirrors (tell : Retelling) (x y : Check α) : Prop :=
  ∀ s a t, x s = .ok a t → y (s.retold tell) = .ok a (t.retold tell)

section Rules

variable {x y : Check α} {f g : α → Check β}

theorem mirrors_pure (a : α) : Mirrors tell (pure a) (pure a) := by
  intro s b t h
  cases h
  rfl

theorem mirrors_throw (e : Fault) (y : Check α) : Mirrors tell (throw e) y := by
  intro s a t h
  cases h

theorem Mirrors.bind (hx : Mirrors tell x y) (hf : ∀ a, Mirrors tell (f a) (g a)) :
    Mirrors tell (x >>= f) (y >>= g) := by
  intro s b u h
  obtain ⟨a, t, ha, hb⟩ := bind_apply_eq_ok.mp h
  exact bind_apply_eq_ok.mpr ⟨a, t.retold tell, hx s a t ha, hf a t b u hb⟩

theorem mirrors_lift (x : Except Fault α) : Mirrors tell (lift x) (lift x) := by
  cases x with
  | ok a => exact mirrors_pure a
  | error e => exact mirrors_throw e _

theorem mirrors_get {f g : State → Check β} (h : ∀ s, Mirrors tell (f s) (g (s.retold tell))) :
    Mirrors tell (get >>= f) (get >>= g) :=
  fun s b t hf => h s s b t hf

theorem mirrors_modify {f : State → State} (h : ∀ s, f (s.retold tell) = (f s).retold tell) :
    Mirrors tell (modify f) (modify f) := by
  intro s a t hs
  cases hs
  rw [modify_apply, h]

theorem mirrors_ite {c : Prop} [Decidable c] {x' y' : Check α} (hx : Mirrors tell x y)
    (hx' : Mirrors tell x' y') : Mirrors tell (if c then x else x') (if c then y else y') := by
  by_cases hc : c
  · rwa [if_pos hc, if_pos hc]
  · rwa [if_neg hc, if_neg hc]

theorem mirrors_forM {f g : α → Check PUnit} (xs : List α)
    (h : ∀ a, Mirrors tell (f a) (g a)) : Mirrors tell (xs.forM f) (xs.forM g) := by
  induction xs with
  | nil => exact mirrors_pure _
  | cons a rest ih => exact (h a).bind fun _ => ih

theorem mirrors_mapM (xs : List α) (h : ∀ a, Mirrors tell (f a) (g a)) :
    Mirrors tell (xs.mapM f) (xs.mapM g) := by
  induction xs with
  | nil => exact mirrors_pure _
  | cons a rest ih =>
    rw [List.mapM_cons, List.mapM_cons]
    exact (h a).bind fun b => ih.bind fun bs => mirrors_pure _

end Rules

theorem mirrors_record (e : Event) (he : e.isReport = false) :
    Mirrors tell (record e) (record e) := by
  refine mirrors_modify fun s => ?_
  simp only [State.retold, tell.messages_cons _ _ he]

theorem mirrors_current : Mirrors tell current current := by
  refine mirrors_get fun s => ?_
  simp only [State.retold_stack, State.retold_scope?]
  split
  · exact mirrors_throw _ _
  · split
    · exact mirrors_pure _
    · exact mirrors_throw _ _

theorem mirrors_updateScope (id : ScopeId) (f : Scope → Scope) :
    Mirrors tell (updateScope id f) (updateScope id f) :=
  mirrors_modify fun _ => rfl

theorem mirrors_datum (v : Value) : Mirrors tell (datum v) (datum v) := by
  unfold datum
  split
  · refine mirrors_get fun s => ?_
    simp only [State.retold_position?]
    split <;> exact mirrors_pure _
  · exact mirrors_pure _

/-- A report that gets through has its like where something else is ignored. -/
def Retells (tell : Retelling) (cfg : Setup) (kinds lines : Datum) (named : Named) : Prop :=
  ∀ k args, Mirrors tell (reportWith cfg k args named)
    (reportWith (cfg.less kinds lines) k args named)

end Check

end ScopeLint
