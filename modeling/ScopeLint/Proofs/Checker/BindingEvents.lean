import ScopeLint.Proofs.Checker.CommonAncestor
import ScopeLint.Proofs.Checker.NameReports
import ScopeLint.Proofs.Checker.Steps

/-! # What a step does to bindings

A step does at most one thing to what the scopes hold: it marks a binding as used, it binds a name in
the scope on top, or it deletes one there. Which of them it does can be told before. -/
namespace ScopeLint

open List

variable {cfg : Setup} {s t : State} {n : Node} {b : Binding} {step : Step} {nodes : Node → Prop}

namespace State

section Marks

/-! What is found out by climbing depends on the marks of the nodes that the climbs go through. -/

variable {main : Node → Prop} (hmark : ∀ n, main n → t.mark? n = s.mark? n)
  (hup : ∀ n k, main n → s.mark? n = some k → ∀ a ∈ k.ancestors, main a)

include hup in
theorem main_of_mem_lineage {n a : Node} (hn : main n) (ha : a ∈ s.lineage n) : main a := by
  rcases mem_cons.mp ha with rfl | ha
  · exact hn
  · cases hk : s.mark? n with
    | none => simp [hk] at ha
    | some k =>
      rw [hk] at ha
      exact hup n k hn hk a ha

include hmark

theorem lineage_congr (hn : main n) : t.lineage n = s.lineage n := by
  rw [lineage, hmark n hn, lineage]

include hup

theorem commonAncestor_congr (stop : Node) {l r : Node} (hl : main l) (hr : main r) :
    t.commonAncestor stop l r = s.commonAncestor stop l r := by
  simp only [commonAncestor, lineage_congr hmark hl, lineage_congr hmark hr]
  exact meetWithin_congr _ _ (fun a ha => hmark a (main_of_mem_lineage hup hl ha))
    fun a ha => hmark a (main_of_mem_lineage hup hr ha)

theorem descendantOf_congr {n stop : Node} {items : List Value} (hn : main n)
    (hitems : ∀ b, .node b ∈ items → main b) :
    t.descendantOf cfg.root n items (some stop) = s.descendantOf cfg.root n items (some stop) := by
  unfold descendantOf
  rw [Bool.eq_iff_iff, any_eq_true, any_eq_true]
  refine exists_congr fun v => and_congr_right fun hv => ?_
  cases v with
  | node b =>
    simp only [commonAncestor_congr hmark hup _ hn (hitems b hv)]
  | _ => rfl

/-- Whether two nodes are on branches that exclude each other, where the climbs from both, and from
what is below the nodes that they go through, have the same marks to go by. -/
theorem differentForks_congr (hdown : ∀ n m, main n → m ∈ n.children → main m) (hroot : main cfg.root)
    {l r : Node} (hl : main l) (hr : main r) :
    t.differentForks cfg l r = s.differentForks cfg l r := by
  unfold differentForks
  rw [commonAncestor_congr hmark hup _ hl hr]
  cases hmeet : s.commonAncestor cfg.root l r with
  | none => rfl
  | some a =>
    have ha : main a := by
      rcases mem_of_meetWithin hmeet with rfl | hmem
      · exact hroot
      · exact main_of_mem_lineage hup hl hmem
    dsimp only
    cases hforks : forks cfg.dialect a with
    | error e => rfl
    | ok branches =>
      rw [ok_bind, ok_bind]
      refine anyM_congr (forall₂_same.mpr fun branch hbranch => ?_)
      cases hitems : branch.items with
      | error e => rfl
      | ok items =>
        have hmain (b : Node) (hb : .node b ∈ items) : main b :=
          hdown a b ha (mem_children_of_forks hforks hbranch hitems hb).1
        rw [ok_bind, ok_bind, onFork, onFork, descendantOf_congr hmark hup hl hmain,
          descendantOf_congr hmark hup hr hmain]

end Marks

/-- Whether the place of a binding is known to be on another branch than the node. -/
def apart (s : State) (cfg : Setup) (n : Node) : Value → Bool
  | .node m => (s.differentForks cfg n m).toOption.getD false
  | _ => false

/-- Whether an unused definition on the branch of `n` stays in its place. -/
def keeps (s : State) (cfg : Setup) (n : Node) (existing : Option Binding) : Bool :=
  existing.any fun old => old.isUnusedDefinition && !s.apart cfg n old.source

/-- What becomes of a binding at `n` in the scope on top. -/
def placing? (s : State) (cfg : Setup) (n : Node) (b : Binding) : Option Event := do
  let top ← s.stack.head?
  let key ← b.name.key.toOption
  if s.keeps cfg n (s.binding? top key) then none else return .bound top key n b

def finds? (s : State) (key : Datum.Key) : Option ScopeId :=
  s.visibleScopes.toOption.bind fun visible => visible.find? fun id => (s.binding? id key).isSome

end State

def Act.event? (cfg : Setup) (s : State) : Act → Option Event
  | .load v => do
    let key ← v.nameOf?.bind (·.key.toOption)
    let id ← s.finds? key
    let top ← s.stack.head?
    return .loaded id key ⟨top, v⟩
  | .store n => do
    let name ← (Value.node n).nameOf?
    let key ← name.key.toOption
    let top ← s.stack.head?
    let scope ← s.scope? top
    let (kind, source) ← (Check.storeKind scope (s.parent? n) key n).toOption
    s.placing? cfg n ⟨name, kind, source, (s.binding? top key).bind (·.used)⟩
  | .bind n b _ => s.placing? cfg n b
  | .delete n => do
    let key ← (Value.node n).nameOf?.bind (·.key.toOption)
    let top ← s.stack.head?
    let w := s.viewOf top
    if (w.kind = .function ∧ key ∈ w.globals) ∨ key ∉ w.keys then none else return .deleted top key
  | _ => none

def Step.event? (cfg : Setup) (s : State) : Step → Option Event
  | .take _ (.act a) => a.event? cfg s
  | .take n (.future b) => do
    let top ← s.stack.head?
    s.placing? cfg n { b with used := some ⟨top, .node n⟩ }
  | _ => none

/-- What a step that does this makes of a binding. -/
def Event.afterAll (e : Option Event) (id : ScopeId) (key : Datum.Key) (old : Option Binding) :
    Option Binding :=
  e.elim old (Event.after id key old)

namespace State

theorem apart_of_marks (cfg : Setup) (h : t.marks = s.marks) (n : Node) (v : Value) :
    t.apart cfg n v = s.apart cfg n v := by
  cases v with
  | node m =>
    have hmark (a : Node) (_ : True) : t.mark? a = s.mark? a := by rw [mark?, mark?, h]
    have hforks : t.differentForks cfg n m = s.differentForks cfg n m :=
      differentForks_congr hmark (fun _ _ _ _ _ _ => trivial) (fun _ _ _ _ => trivial) trivial
        trivial trivial
    rw [apart, hforks, apart]
  | _ => rfl

theorem keeps_of_marks (cfg : Setup) (h : t.marks = s.marks) (n : Node) (existing : Option Binding) :
    t.keeps cfg n existing = s.keeps cfg n existing := by
  cases existing with
  | none => simp only [keeps, Option.any_none]
  | some old => simp [keeps, apart_of_marks cfg h]

theorem Still.binding?_afterAll (h : s.Still t) (id : ScopeId) (key : Datum.Key) :
    t.binding? id key = Event.afterAll none id key (s.binding? id key) :=
  binding?_congr (h.entriesOf_eq id) key

end State

namespace Check

theorem keptDefinition?_eq_ok {existing kept : Option Binding}
    (h : keptDefinition? cfg n existing s = .ok kept t) : kept.isSome = s.keeps cfg n existing := by
  cases existing with
  | none =>
    cases h
    rfl
  | some old =>
    simp only [keptDefinition?] at h
    split at h
    · rename_i hunused
      obtain ⟨apart, r, hforks, h⟩ := bind_apply_eq_ok.mp h
      have hapart : s.apart cfg n old.source = apart := by
        cases hsource : old.source with
        | node m =>
          rw [hsource] at hforks
          replace hforks := get_bind_eq_ok.mp hforks
          obtain ⟨found, hfound, hrecord⟩ := lift_bind_eq_ok.mp hforks
          cases hrecord
          rw [State.apart, hfound]
          rfl
        | _ =>
          rw [hsource] at hforks
          cases hforks
          rfl
      cases apart <;>
      · cases h
        simp [State.keeps, hunused, hapart]
    · rename_i hused
      cases h
      simp [State.keeps, hused]

/-- What a statement that binds a name in the scope on top makes of the bindings. -/
theorem binding?_of_bind {reportsHidden : Bool} (h : bind cfg n b reportsHidden s = .ok () t)
    (id : ScopeId) (k : Datum.Key) :
    t.binding? id k = Event.afterAll (s.placing? cfg n b) id k (s.binding? id k) := by
  obtain ⟨top, rest, scope, hstack, hscope, hrest⟩ := current_bind_eq_ok h
  obtain ⟨key, hkey, hbind⟩ := lift_bind_eq_ok.mp hrest
  have hold : scope.find? key = s.binding? top key := by simp [State.binding?, hscope]
  dsimp only at hbind
  rw [hold] at hbind
  have hplace : ∃ r, s.Says Kind.besides r ∧
      place cfg n key b top (s.binding? top key) r = .ok () t := by
    cases reportsHidden with
    | false => exact ⟨s, .refl s, hbind⟩
    | true =>
      obtain ⟨_, r, hreported, hplace⟩ := bind_apply_eq_ok.mp hbind
      exact ⟨r, (told_reportRebinding n key b scope.kind _).ok hreported, hplace⟩
  obtain ⟨r, hspeech, hplace⟩ := hplace
  obtain ⟨kept, u, hkept, hplace⟩ := bind_apply_eq_ok.mp hplace
  have hspeech' : s.Says Kind.besides u :=
    hspeech.trans ((told_keptDefinition? n _).ok hkept)
  have hkeeps := keptDefinition?_eq_ok hkept
  rw [State.keeps_of_marks cfg hspeech.alike.marks_eq] at hkeeps
  simp only [State.placing?, hstack, hkey, head?_cons, Except.toOption, Option.bind_eq_bind,
    Option.bind_some, ← hkeeps]
  cases kept with
  | none =>
    cases hplace
    have hid : u.scope? top = some scope := by
      rw [State.scope?, hspeech'.scopes_eq]
      exact hscope
    have hbound := State.binding?_withBinding (Option.isSome_of_eq_some hid) id key k n b
    rwa [hspeech'.binding?_eq] at hbound
  | some old =>
    obtain ⟨d, v, hd, hplace⟩ := bind_apply_eq_ok.mp hplace
    obtain ⟨_, w, hreport, hrecord⟩ := bind_apply_eq_ok.mp hplace
    cases hrecord
    obtain rfl : v = u := (reads_datum _).ok hd
    have hkind : .redefinedWhileUnused ∈ Kind.besides := by simp [Kind.besides]
    have hlast := hspeech'.trans ((told_report hkind _ _).ok hreport)
    exact hlast.binding?_eq id k

theorem binding?_of_load {v : Value} (h : load cfg v s = .ok () t) (id : ScopeId) (k : Datum.Key) :
    t.binding? id k = Event.afterAll (Act.event? cfg s (.load v)) id k (s.binding? id k) := by
  rcases load_eq_ok h with ⟨hname, rfl⟩ | ⟨name, key, visible, hname, hkey, hvisible, hend⟩
  · simp [Act.event?, hname, Event.afterAll]
  have hevent : Act.event? cfg s (.load v) =
      (visible.find? fun id => (s.binding? id key).isSome).bind fun id =>
        s.stack.head?.map fun top => .loaded id key ⟨top, v⟩ := by
    simp only [Act.event?, State.finds?, hname, hkey, hvisible, Except.toOption, Option.bind_some,
      Option.bind_eq_bind]
    cases visible.find? fun id => (s.binding? id key).isSome with
    | none => rfl
    | some id => cases s.stack.head? <;> rfl
  rw [hevent]
  rcases hend with ⟨found, top, rest, hfind, hstack, -, rfl⟩ | ⟨hfind, hend⟩
  · rw [hfind, hstack, State.binding?_withUse]
    simp only [Option.bind_some, head?_cons, Option.map_some, Event.afterAll, Option.elim_some,
      Event.after]
    split
    · rename_i heq
      rw [heq.1, heq.2]
    · rfl
  · rw [hfind]
    rcases hend with ⟨-, rfl⟩ | ⟨-, hreport⟩
    · rfl
    · exact ((told_report (mem_singleton.mpr rfl) _ _).ok hreport).binding?_eq id k

theorem binding?_of_store (h : store cfg n s = .ok () t) (id : ScopeId) (k : Datum.Key) :
    t.binding? id k = Event.afterAll (Act.event? cfg s (.store n)) id k (s.binding? id k) := by
  rcases store_eq_ok h with ⟨hname, rfl⟩ |
    ⟨name, key, top, rest, scope, kind, source, r, hname, hkey, hstack, hscope, hkind, hbefore, hbind⟩
  · simp [Act.event?, hname, Event.afterAll]
  have hr : ∃ kinds, s.Says kinds r := by
    rcases hbefore with ⟨-, rfl⟩ | ⟨use, b, -, hreport⟩
    · exact ⟨[], .refl _⟩
    · exact ⟨_, (told_report (mem_singleton.mpr rfl) _ _).ok hreport⟩
  obtain ⟨kinds, hspeech⟩ := hr
  have hold : scope.find? key = s.binding? top key := by simp [State.binding?, hscope]
  have hplacing (b : Binding) : r.placing? cfg n b = s.placing? cfg n b := by
    rw [State.placing?, State.placing?, hspeech.alike.stack_eq]
    simp only [State.keeps_of_marks cfg hspeech.alike.marks_eq, hspeech.binding?_eq]
  have hevent : Act.event? cfg s (.store n) =
      s.placing? cfg n ⟨name, kind, source, (scope.find? key).bind (·.used)⟩ := by
    simp [Act.event?, hname, hkey, hstack, hscope, hkind, hold, Except.toOption]
  rw [binding?_of_bind hbind, hplacing, hspeech.binding?_eq, hevent]

theorem binding?_of_delete (h : delete cfg n s = .ok () t) (id : ScopeId) (k : Datum.Key) :
    t.binding? id k = Event.afterAll (Act.event? cfg s (.delete n)) id k (s.binding? id k) := by
  rcases delete_eq_ok h with ⟨hname, rfl⟩ |
    ⟨name, key, top, rest, scope, hname, hkey, hstack, hscope, hend⟩
  · simp [Act.event?, hname, Event.afterAll]
  have hevent : Act.event? cfg s (.delete n) =
      if (scope.kind = .function ∧ scope.isGlobal key = true) ∨ ¬ scope.has key = true then none
      else some (.deleted top key) := by
    simp only [Act.event?, hname, hkey, hstack, Except.toOption, Option.bind_some,
      Option.bind_eq_bind, head?_cons, State.viewOf_of_scope hscope, Scope.mem_globals_view,
      Scope.mem_keys_view]
    rfl
  rw [hevent]
  rcases hend with ⟨hkind, hglobal, rfl⟩ | ⟨hglobal, ⟨hhas, rfl⟩ | ⟨hhas, hreport⟩⟩
  · rw [if_pos (.inl ⟨hkind, hglobal⟩)]
    refine (State.binding?_modified (f := (·.forgetGlobal key)) rfl id k).trans ?_
    split
    · rename_i heq
      rw [heq]
      rfl
    · rfl
  · rw [if_neg (not_or.mpr ⟨hglobal, not_not.mpr hhas⟩), State.binding?_withoutBinding]
    rfl
  · rw [if_pos (.inr (by simp [hhas]))]
    exact ((told_report (mem_singleton.mpr rfl) _ _).ok hreport).binding?_eq id k

theorem binding?_of_act {a : Act} (h : a.run cfg s = .ok () t) (id : ScopeId) (k : Datum.Key) :
    t.binding? id k = Event.afterAll (a.event? cfg s) id k (s.binding? id k) := by
  cases a with
  | load v => exact binding?_of_load h id k
  | store n => exact binding?_of_store h id k
  | delete n => exact binding?_of_delete h id k
  | bind n b reportsHidden => exact binding?_of_bind h id k
  | globals n => exact (((told_ruleGlobal n).ends cfg).ok h).binding?_afterAll id k
  | locals n => exact (((told_noteLocals n).ends cfg).ok h).binding?_afterAll id k
  | star n module => exact ((told_importStar n module).ok h).binding?_afterAll id k
  | callee n => exact ((told_checkCallee n).ok h).binding?_eq id k
  | shadowing n name => exact ((told_reportShadowing n name).ok h).binding?_eq id k
  | lateImports =>
    cases h
    rfl
  | report kind subject args =>
    exact ((told_report (mem_singleton.mpr rfl) subject args).ok h).binding?_eq id k

end Check

theorem Step.Leads.binding?_eq (h : step.Leads cfg s t) (id : ScopeId) (k : Datum.Key) :
    t.binding? id k = Event.afterAll (step.event? cfg s) id k (s.binding? id k) := by
  cases h with
  | enter | leave | closes | guards | unguards | defers => rfl
  | act _ ha => exact Check.binding?_of_act ha id k
  | late _ hspeech => exact hspeech.binding?_eq id k
  | @future n b top rest _ hstack hbind =>
    have hevent : event? cfg s (.take n (.future b)) =
        s.placing? cfg n { b with used := some ⟨top, .node n⟩ } := by
      simp [event?, hstack]
    rw [hevent]
    exact Check.binding?_of_bind hbind id k
  | opens _ kind => exact s.binding?_opened kind id k

/-- The use is noted at a binding. -/
def State.UsedBy (s : State) (use : Use) : Prop :=
  ∃ id key b, s.binding? id key = some b ∧ b.used = some use

namespace State

theorem placing?_eq_some {e : Event} (h : s.placing? cfg n b = some e) :
    ∃ top key, s.stack.head? = some top ∧ e = .bound top key n b := by
  obtain ⟨top, htop, h⟩ := Option.bind_eq_some_iff.mp h
  obtain ⟨key, -, h⟩ := Option.bind_eq_some_iff.mp h
  split at h
  · cases h
  · cases h
    exact ⟨top, key, htop, rfl⟩

/-- The use that is found for a name that is bound too late is one in the scope on top. -/
theorem usedBefore?_eq_some {name : Datum} {use : Use} (h : s.usedBefore? n = some (name, use, b)) :
    s.UsedBy use ∧ s.stack.head? = some use.scope := by
  obtain ⟨_, -, h⟩ := Option.bind_eq_some_iff.mp h
  obtain ⟨key, -, h⟩ := Option.bind_eq_some_iff.mp h
  obtain ⟨top, htop, h⟩ := Option.bind_eq_some_iff.mp h
  dsimp only at h
  split at h
  · obtain ⟨⟨use', b'⟩, hused, heq⟩ := Option.map_eq_some_iff.mp h
    cases heq
    obtain ⟨id, -, hid⟩ := exists_of_findSome?_eq_some hused
    split at hid
    · obtain ⟨c, hc, hid⟩ := Option.bind_eq_some_iff.mp hid
      obtain ⟨use'', huse, hid⟩ := Option.bind_eq_some_iff.mp hid
      split at hid
      · rename_i hscope
        cases hid
        exact ⟨⟨id, key, _, hc, huse⟩, hscope ▸ htop⟩
      · cases hid
    · cases hid
  · cases h

end State

/-- What a step does to bindings, in general: a use in the scope on top is noted, or a name is bound or
deleted there. A use that comes with a new binding is one that was noted before, or one in the scope on
top. The node of such a use is `among` those that have to do with the visit. -/
inductive Event.IsAt (s : State) (among : Value → Prop) (top : ScopeId) : Event → Prop
  | loaded {id : ScopeId} {key : Datum.Key} {v : Value} : among v →
      IsAt s among top (.loaded id key ⟨top, v⟩)
  | bound {key : Datum.Key} {n : Node} {b : Binding} :
      (∀ use, b.used = some use → s.UsedBy use ∨ (use.scope = top ∧ among use.node)) →
      IsAt s among top (.bound top key n b)
  | deleted {key : Datum.Key} : IsAt s among top (.deleted top key)

namespace Step

variable {values : Value → Prop}

theorem isAt_event? (hstep : step.IsFrom cfg nodes) (hcovers : Covers nodes values) {e : Event}
    (h : step.event? cfg s = some e) : ∃ top, s.stack.head? = some top ∧ e.IsAt s values top := by
  match step with
  | .take n (.act (.load v)) =>
    obtain ⟨key, -, h⟩ := Option.bind_eq_some_iff.mp h
    obtain ⟨id, -, h⟩ := Option.bind_eq_some_iff.mp h
    obtain ⟨top, htop, h⟩ := Option.bind_eq_some_iff.mp h
    cases h
    refine ⟨top, htop, .loaded ?_⟩
    rcases hstep.2.1 with rfl | htarget
    · exact hcovers.node n hstep.1
    · exact hcovers.target n v hstep.1 htarget
  | .take n (.act (.store m)) =>
    obtain ⟨name, -, h⟩ := Option.bind_eq_some_iff.mp h
    obtain ⟨key, -, h⟩ := Option.bind_eq_some_iff.mp h
    obtain ⟨top, -, h⟩ := Option.bind_eq_some_iff.mp h
    obtain ⟨scope, -, h⟩ := Option.bind_eq_some_iff.mp h
    obtain ⟨⟨kind, source⟩, -, h⟩ := Option.bind_eq_some_iff.mp h
    obtain ⟨top', key', htop', rfl⟩ := State.placing?_eq_some h
    refine ⟨top', htop', .bound fun use huse => .inl ?_⟩
    obtain ⟨b, hb, hused⟩ := Option.bind_eq_some_iff.mp huse
    exact ⟨_, _, b, hb, hused⟩
  | .take n (.act (.bind m b hidden)) =>
    obtain ⟨top, key, htop, rfl⟩ := State.placing?_eq_some h
    refine ⟨top, htop, .bound fun use huse => ?_⟩
    have hnew : b.used = none := hstep.2.1.2.used
    rw [hnew] at huse
    cases huse
  | .take n (.act (.delete m)) =>
    obtain ⟨key, -, h⟩ := Option.bind_eq_some_iff.mp h
    obtain ⟨top, htop, h⟩ := Option.bind_eq_some_iff.mp h
    dsimp only at h
    split at h
    · cases h
    · cases h
      exact ⟨top, htop, .deleted⟩
  | .take n (.future b) =>
    obtain ⟨top, htop, h⟩ := Option.bind_eq_some_iff.mp h
    obtain ⟨top', key, htop', rfl⟩ := State.placing?_eq_some h
    obtain rfl : top = top' := Option.some.inj (htop.symm.trans htop')
    refine ⟨top, htop, .bound fun use huse => .inr ?_⟩
    cases huse
    exact ⟨rfl, hcovers.node n hstep.1⟩

theorem Leads.usedBy (h : step.Leads cfg s t) (hstep : step.IsFrom cfg nodes)
    (hcovers : Covers nodes values) {use : Use} (huse : t.UsedBy use) :
    s.UsedBy use ∨ (s.stack.head? = some use.scope ∧ values use.node) := by
  obtain ⟨id, key, b, hb, hused⟩ := huse
  rw [h.binding?_eq] at hb
  cases hevent : step.event? cfg s with
  | none =>
    rw [hevent] at hb
    exact .inl ⟨id, key, b, hb, hused⟩
  | some e =>
    obtain ⟨top, htop, hat⟩ := isAt_event? hstep hcovers hevent
    simp only [hevent, Event.afterAll, Option.elim_some] at hb
    cases hat with
    | loaded hv =>
      simp only [Event.after] at hb
      split at hb
      · obtain ⟨c, -, rfl⟩ := Option.map_eq_some_iff.mp hb
        cases hused
        exact .inr ⟨htop, hv⟩
      · exact .inl ⟨id, key, b, hb, hused⟩
    | bound huses =>
      simp only [Event.after] at hb
      split at hb
      · cases hb
        rcases huses use hused with hold | ⟨rfl, hv⟩
        · exact .inl hold
        · exact .inr ⟨htop, hv⟩
      · exact .inl ⟨id, key, b, hb, hused⟩
    | deleted =>
      simp only [Event.after] at hb
      split at hb
      · cases hb
      · exact .inl ⟨id, key, b, hb, hused⟩

end Step

/-- What is bound to a name, whether it is used or not. -/
def State.held (s : State) (id : ScopeId) (key : Datum.Key) : Option (BindingKind × Value) :=
  (s.binding? id key).map fun b => (b.kind, b.source)

theorem Step.Leads.held_eq (h : step.Leads cfg s t) (hstep : step.IsFrom cfg nodes) {id : ScopeId}
    (hid : s.stack.head? ≠ some id) (key : Datum.Key) : t.held id key = s.held id key := by
  rw [State.held, State.held, h.binding?_eq]
  cases hevent : step.event? cfg s with
  | none => rfl
  | some e =>
    have hcovers : Covers nodes fun _ => True := ⟨fun _ _ => trivial, fun _ _ _ _ => trivial⟩
    obtain ⟨top, htop, hat⟩ := Step.isAt_event? hstep hcovers hevent
    have hne : id ≠ top := fun heq => hid (heq ▸ htop)
    cases hat with
    | loaded =>
      simp only [Event.afterAll, Option.elim_some, Event.after]
      split
      · cases s.binding? id key <;> rfl
      · rfl
    | bound => simp [Event.afterAll, Event.after, hne]
    | deleted => simp [Event.afterAll, Event.after, hne]

end ScopeLint
