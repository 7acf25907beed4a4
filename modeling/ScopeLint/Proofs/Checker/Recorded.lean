import ScopeLint.Proofs.Checker.Moves
import ScopeLint.Proofs.Checker.ScopeStack

/-! # A run is on record

At every moment of a run, and at its end, the scopes hold what the record tells. A task that was put
off binds names only in the scope that it opens and in scopes opened later. -/
namespace ScopeLint

variable {cfg : Setup} {s t r : State} {q : Queue} {i : Nat} {d : Deferred} {n : Node}

namespace State

theorem keeps_resumed (s : State) (q : Queue) (i : Nat) (d : Deferred) (kinds : List Kind) :
    s.Keeps kinds (s.resumed q i d) :=
  .of_eq rfl rfl

theorem binding?_opened_size (s : State) (kind : ScopeKind) (key : Datum.Key) :
    (s.opened kind).binding? s.scopes.size key = none := by
  simp [binding?, scope?, opened, Scope.empty, Scope.find?]

end State

namespace Check

variable {on : List ScopeId → Prop}

/-- Parameters are bound one after another in a scope that holds nothing else. -/
theorem moves_bindParameters {top : ScopeId} {rest : List ScopeId} (names : List Datum)
    (hstack : s.stack = top :: rest) (hon : on (top :: rest))
    (hnone : ∀ key o, s.binding? top key = some o → o.isUnusedImport = false) :
    EndsAt (.moves on) (bindParameters cfg n names) s := by
  induction names generalizing s with
  | nil => exact ends_pure _ s
  | cons name names ih =>
    have hfirst : EndsAt (.moves on) (bind cfg n (.fresh name .argument (.node n)) false) s := by
      refine moves_bind fun top' rest' key hstack' _ => ?_
      obtain ⟨rfl, rfl⟩ := List.cons.inj (hstack.symm.trans hstack')
      exact ⟨hon, .parameter name (hnone key), nofun, .inr (hnone key)⟩
    refine EndsAt.bind hfirst fun _ r hr => ih ?_ ?_
    · rw [((mild_bind cfg n _ false).ok hr).stack_eq]
      exact hstack
    · obtain ⟨top', rest', key', r', es, hstack', hscope, -, hspeech, -, hend⟩ := bind_eq_ok hr
      obtain ⟨rfl, -⟩ := List.cons.inj (hstack.symm.trans hstack')
      intro key o ho
      rcases hend with ⟨rfl, -⟩ | ⟨rfl, -⟩
      · have hscope' : (r'.scope? top).isSome = true := by rwa [State.scope?, hspeech.scopes_eq]
        rw [State.binding?_withBinding hscope'] at ho
        split at ho
        · cases ho
          rfl
        · rw [hspeech.binding?_eq] at ho
          exact hnone key o ho
      · have hsame : (r'.withRefusal top key' n (.fresh name .argument (.node n))).binding? top key =
            r'.binding? top key := rfl
        rw [hsame, hspeech.binding?_eq] at ho
        exact hnone key o ho

end Check

section Strokes

variable {u : State} {names : List Datum}

/-- The scope of a body is new, and so are all scopes in which names are bound during the task. -/
theorem moves_parameters : Check.EndsAt (.moves ((s.resumed q i d).opened .function).Carries)
    (Check.bindParameters cfg n names) ((s.resumed q i d).opened .function) := by
  refine Check.moves_bindParameters names rfl (State.carries_stack _) fun key o ho => ?_
  have hnone := (s.resumed q i d).binding?_opened_size .function key
  cases hnone.symm.trans ho

theorem moves_opened (s : State) (q : Queue) (i : Nat) (d : Deferred) (on : List ScopeId → Prop) :
    Moves on s ((s.resumed q i d).opened .function) :=
  ((s.keeps_resumed q i d _).trans (State.keeps_opened _ .function)).moves

theorem Examples.moves (h : Examples cfg s t) : Moves s.Carries s t := by
  induction h with
  | done => exact .refl
  | next hex _ ih ih' => exact ih.trans (ih'.mono fun _ hid => hid.of_grows hex.stack_eq hex.grows)
  | speech h => exact h.keeps.moves
  | @tree s t tree shift back h =>
    have hstart : s.Keeps Kind.walked (s.forExample tree shift) := .of_eq rfl rfl
    have hend : t.Keeps Kind.walked { t with shift := some back } := .of_eq rfl rfl
    exact (hstart.moves.trans h.moves).trans hend.moves

theorem ExamplesCut.moves (h : ExamplesCut cfg s t) : Moves s.Carries s t := by
  induction h with
  | here => exact .refl
  | next h _ ih => exact h.moves.trans (ih.mono fun _ hid => hid.of_grows h.stack_eq h.grows)
  | speech h => exact h.keeps.moves
  | @tree s t tree shift h =>
    have hstart : s.Keeps Kind.walked (s.forExample tree shift) := .of_eq rfl rfl
    exact hstart.moves.trans h.moves

theorem moves_examples (h : Examples cfg ((s.resumed q i d).opened .function) t) :
    Moves ((s.resumed q i d).opened .function).Carries s t :=
  (moves_opened s q i d _).trans h.moves

theorem State.Recorded.finished (h : s.Recorded) (n : Node) (top : ScopeId)
    (entries : Array Deferred) (verdicts : List Task) :
    (s.finished n top entries verdicts).Recorded where
  keys_nodup := h.keys_nodup
  binding?_eq := h.binding?_eq
  chronicle := ⟨trivial, h.chronicle.mono fun _ _ hk => hk⟩

theorem State.Recorded.closed (h : s.Recorded) (id : ScopeId) (rest : List ScopeId) :
    (s.closed id rest).Recorded := by
  have hkeeps : s.Keeps Kind.walked (s.closed id rest) := .of_eq rfl rfl
  exact h.keeps hkeeps

theorem State.recorded_initial (next : Nat) : (State.initial next).Recorded where
  keys_nodup := by
    intro id
    cases id with
    | zero => exact List.nodup_nil
    | succ id => simp [State.keysOf, State.entriesOf, State.scope?, State.initial]
  binding?_eq := by
    intro id key
    cases id with
    | zero => rfl
    | succ id => simp [State.binding?, State.scope?, State.initial, replayed]
  chronicle := trivial

section

variable (hparameters :
  Check.bindParameters cfg n names ((s.resumed q i d).opened .function) = .ok () r)

include hparameters

/-- What the body of a function does to names in the scope that is opened for it. -/
theorem moves_inBody (hcourse : Course cfg n n.deferred r u) :
    Moves ((s.resumed q i d).opened .function).Carries ((s.resumed q i d).opened .function) u := by
  have halike := (Check.mild_bindParameters cfg n names).ok hparameters
  refine .trans (moves_parameters.ok hparameters) (hcourse.moves.mono fun _ hid => ?_)
  exact hid.of_grows halike.stack_eq halike.grows

theorem moves_body (hcourse : Course cfg n n.deferred r u) :
    Moves ((s.resumed q i d).opened .function).Carries s u :=
  (moves_opened s q i d _).trans (moves_inBody hparameters hcourse)

end

theorem Stroke.recorded (h : Stroke cfg q s t) (hs : s.Recorded) : t.Recorded := by
  cases h with
  | body _ _ hparameters hcourse hfinish hpop =>
    obtain ⟨top, _, entries, -, -, rfl⟩ := Check.finishBody_eq_ok hfinish
    obtain ⟨id, rest, -, rfl⟩ := Check.popScope_eq_ok hpop
    exact (((moves_body hparameters hcourse).recorded hs).finished _ top entries _).closed id rest
  | doctests _ h hp =>
    obtain ⟨id, rest, -, rfl⟩ := Check.popScope_eq_ok hp
    exact ((moves_examples h).recorded hs).closed id rest
  | idle _ => exact hs.keeps (s.keeps_resumed _ _ _ Kind.walked)
  | verdict _ _ h => exact (hs.keeps (s.keeps_resumed _ _ _ Kind.walked)).keeps h.keeps

theorem StrokeCut.recorded (h : StrokeCut cfg s t) (hs : s.Recorded) : t.Recorded := by
  cases h with
  | here => exact hs
  | walk h => exact h.moves.recorded hs
  | @parameters _ _ q i d _ _ _ _ _ h =>
    have hopened := (moves_opened s q i d fun _ => True).recorded hs
    exact Moves.recorded (moves_parameters.fail h) hopened
  | body _ _ hparameters h =>
    have hr := (moves_body hparameters .done).recorded hs
    exact h.moves.recorded hr
  | @doctests _ _ q i d _ h =>
    exact h.moves.recorded ((moves_opened s q i d fun _ => True).recorded hs)
  | verdict _ h => exact (hs.keeps (s.keeps_resumed _ _ _ Kind.walked)).keeps h.keeps

theorem Run.recorded {next : Nat} (h : Run cfg next s) : s.Recorded := by
  induction h with
  | start => exact State.recorded_initial next
  | walk h => exact h.moves.recorded (State.recorded_initial next)
  | stroke _ h ih => exact h.recorded ih
  | @close s _ ih =>
    have hkeeps : s.Keeps Kind.walked { s with functions := none } := .of_eq rfl rfl
    exact ih.keeps hkeeps

/-- At every moment of a run the scopes hold what the record tells. -/
theorem Check.recorded_reached (cfg : Setup) (stop : Moment → State → Bool) (next : Nat) :
    (reached cfg stop next).Recorded := by
  obtain ⟨s, hrun, hcut⟩ := cut_reached cfg stop next
  exact hcut.recorded hrun.recorded

end Strokes

/-- The end of a step after which the scopes hold what the record tells if they did before. -/
def Ending.recorded : Ending where
  ok s t := s.Recorded → t.Recorded
  fail s t := s.Recorded → t.Recorded
  refl _ h := h
  fail_refl _ h := h
  trans h k hs := k (h hs)
  fail_trans h k hs := k (h hs)

namespace Check

variable {kinds : List Kind}

def judged : List Kind := [.unusedImport, .undefinedExport]

theorem told_reportExports (hk : .undefinedExport ∈ kinds) (scope : Scope) (b : Binding)
    (names : List Datum) : Told (.speech kinds) (reportExports · scope b names) := by
  refine told_ite (fun _ _ _ => Iff.rfl) ((told_lift _).bind fun found => ?_) (told_pure _)
  exact told_forM _ fun name => told_report hk _ _

theorem told_judgeScope (scope : Scope) : Told (.speech judged) (judgeScope · scope) := by
  have hrest (exported : List Datum) : Told (.speech judged) fun cfg =>
      (scope.bindings.filter fun b => b.isUnusedImport && !Datum.among exported b.name).forM
        fun b => report cfg .unusedImport b.source [b.name] :=
    told_forM _ fun b => told_report (by simp [judged]) _ _
  have hk : .undefinedExport ∈ judged := by simp [judged]
  unfold judgeScope
  dsimp only
  split
  · split
    · refine (told_lift _).bind fun names => (told_reportExports hk _ _ _).bind fun _ => ?_
      exact hrest names
    · exact hrest []
  · exact hrest []

theorem told_judgeDead : Told (.speech judged) judgeDead := by
  refine told_get (fun s => told_forM _ fun id => ?_) fun _ _ _ => rfl
  split
  · exact told_judgeScope _
  · exact told_pure _

/-- The state after a step, whether it succeeds or fails. -/
def after (act : Check Unit) (s : State) : State :=
  match act s with
  | .ok _ t => t
  | .error _ t => t

theorem Lands.after {P : State → Prop} {act : Check Unit} (h : Lands P P act s) :
    P (after act s) := by
  unfold Check.after
  cases ha : act s with
  | ok _ t => exact h.ok ha
  | error e t => exact h.fail ha

/-- The state in which a run ends, whether it gets through or fails. -/
def ended (cfg : Setup) (next : Nat) : State := after (run cfg) (State.initial next)

theorem recorded_of_speaks {act : Check Unit} (h : Speaks kinds act) : Ends .recorded act :=
  ends_of (fun _ _ _ ha hs => hs.keeps (h.ok ha).keeps) fun _ _ _ ha hs => hs.keeps (h.fail ha).keeps

theorem recorded_reportRemarks : Ends .recorded (reportRemarks cfg) := by
  unfold reportRemarks
  split
  · exact ends_pure _
  · refine ends_forM fun said _ => (ends_lift said).bind fun remarks => ends_forM fun r _ => ?_
    exact recorded_of_speaks (speaks_reportWith cfg (List.mem_singleton.mpr rfl) r.args r.named)

theorem recorded_passes (cfg : Setup) (next : Nat) :
    EndsAt .recorded (passes cfg (visit cfg)) (State.initial next) := by
  have hreached := recorded_reached cfg (fun _ _ => false) next
  rw [reached, visitUntil_never] at hreached
  rw [EndsAt, Lands]
  split at hreached
  · rename_i heq
    rw [heq]
    exact fun _ => hreached
  · rename_i heq
    rw [heq]
    exact fun _ => hreached

theorem recorded_run (cfg : Setup) (next : Nat) :
    EndsAt .recorded (run cfg) (State.initial next) := by
  refine (recorded_passes cfg next).bind fun _ s _ => ?_
  have hclose : Ends .recorded
      (modify fun s => { s with assignments := none, stack := s.stack.getLast?.toList }) := by
    refine ends_modify fun s hs => ?_
    have hkeeps : s.Keeps Kind.walked
      { s with assignments := none, stack := s.stack.getLast?.toList } := .of_eq rfl rfl
    exact hs.keeps hkeeps
  have hpop : Ends .recorded popScope := by
    refine ends_of (fun s _ t ht hs => ?_) fun s e t ht hs => ?_
    · obtain ⟨id, rest, -, rfl⟩ := popScope_eq_ok ht
      exact hs.closed id rest
    · obtain rfl := popScope_eq_error ht
      exact hs
  refine (hclose.bind fun _ => hpop.bind fun _ => ?_) s
  exact (recorded_of_speaks (told_judgeDead.ends cfg)).bind fun _ => recorded_reportRemarks

theorem recorded_ended (cfg : Setup) (next : Nat) : (ended cfg next).Recorded :=
  (recorded_run cfg next).after (State.recorded_initial next)

end Check

end ScopeLint
