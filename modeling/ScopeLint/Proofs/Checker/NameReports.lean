import ScopeLint.Proofs.Checker.Pending
import ScopeLint.Proofs.Checker.ScriptParts
import ScopeLint.Proofs.Checker.Views

/-! # Reports on names

Two kinds of reports are about names that are not bound: a name that nothing accounts for, and a local
name that is used before it is bound. Which of them a step gives, and what it makes of the scope on
top, can be read off the views of the open scopes and off what the scope on top has used. -/
namespace ScopeLint

open List

/-- Whether diagnostics of the kind are about names that are not bound. -/
def Kind.isOnNames (k : Kind) : Bool := k.hasCode "E303" || k.hasCode "E305"

theorem Kind.isOnNames_of_besides : ∀ k ∈ Kind.besides, k.isOnNames = false := by decide

def Event.nameReport? : Event → Option (Kind × List Datum)
  | .reported k args => if k.isOnNames then some (k, args) else none
  | _ => none

namespace State

variable {s t : State} {es : List Event}

def nameReports (s : State) : List (Kind × List Datum) :=
  s.history.reverse.filterMap Event.nameReport?

theorem nameReports_of_history (h : t.history = es ++ s.history) :
    t.nameReports = s.nameReports ++ es.reverse.filterMap Event.nameReport? := by
  rw [nameReports, nameReports, h, reverse_append, filterMap_append]

theorem nameReports_of_silent (h : t.history = es ++ s.history)
    (hes : ∀ e ∈ es, e.nameReport? = none) : t.nameReports = s.nameReports := by
  rw [nameReports_of_history h, filterMap_eq_nil_iff.mpr, append_nil]
  simpa using hes

theorem Says.nameReports_eq {kinds : List Kind} (h : s.Says kinds t)
    (hkinds : ∀ k ∈ kinds, k.isOnNames = false) : t.nameReports = s.nameReports := by
  obtain ⟨es, hes, hnotes⟩ := h.notes
  refine nameReports_of_silent hes fun e he => ?_
  have hnote := hnotes e he
  cases e with
  | reported k args => simp [Event.nameReport?, hkinds k hnote]
  | _ => rfl

def isGuarded (s : State) : Bool :=
  match (s.guards.headD (.list [])).lists (.text "NameError") with
  | .ok guarded => guarded
  | .error _ => false

end State

/-- What accounts for a name in some scopes, or without them. -/
def Setup.accounts (cfg : Setup) (visible : List View) (key : Datum.Key) : Bool :=
  visible.any (fun w => decide (key ∈ w.keys) || w.starred) || cfg.isBuiltin key ||
    (decide (key = .text "__path__") && cfg.isPackageFile)

/-- Whether nothing accounts for a name, where the open scopes are given. -/
def Setup.misses (cfg : Setup) (scopes : List View) (guarded : Bool) (name : Datum) : Bool :=
  match name.key, View.visible scopes with
  | .ok key, some visible => !cfg.accounts visible key && !guarded
  | _, _ => false

/-- Whether a name cannot be deleted in the scope on top. -/
def View.lacks (scopes : List View) (name : Datum) : Bool :=
  match name.key, scopes with
  | .ok key, top :: _ =>
    !(decide (top.kind = .function) && decide (key ∈ top.globals)) && !decide (key ∈ top.keys)
  | _, _ => false

/-- The use of a name in the scope on top, which binds it now, of a binding further out. -/
def State.usedBefore? (s : State) (n : Node) : Option (Datum × Use × Binding) := do
  let name ← (Value.node n).nameOf?
  let key ← name.key.toOption
  let top ← s.stack.head?
  let w := s.viewOf top
  if w.kind = .function ∧ key ∉ w.keys ∧ key ∉ w.globals then
    (s.usedOutside? top key).map fun (use, b) => (name, use, b)
  else none

def Act.nameReports (cfg : Setup) (s : State) : Act → List (Kind × List Datum)
  | .load v => ((v.nameOf?.filter (cfg.misses s.views s.isGuarded)).map fun name =>
      (.undefinedName, [s.datumOf v, name])).toList
  | .delete n => (((Value.node n).nameOf?.filter (View.lacks s.views)).map fun name =>
      (.undefinedName, [s.datumOf (.node n), name])).toList
  | .store n => ((s.usedBefore? n).map fun (name, use, b) =>
      (.undefinedLocal, [s.datumOf use.node, name, s.datumOf b.source])).toList
  | _ => []

def Act.alter : Act → View → View
  | .store n, w =>
    match (Value.node n).nameOf?.bind (·.key.toOption) with
    | some key => w.bind key
    | none => w
  | .bind _ b _, w =>
    match b.name.key.toOption with
    | some key => w.bind key
    | none => w
  | .delete n, w =>
    match (Value.node n).nameOf?.bind (·.key.toOption) with
    | some key => if w.kind = .function ∧ key ∈ w.globals then w.forget key else w.drop key
    | none => w
  | .globals n, w =>
    if w.kind = .function then
      (((n.itemsOf "names").toOption.getD []).filterMap (·.datum.key.toOption)).foldl View.declare w
    else w
  | .star _ _, w => { w with starred := true }
  | _, w => w

namespace State

variable {s t : State} {g : View → View} {rest : List ScopeId}

/-- A step that gives these reports on names, and makes this of the view of the scope on top. -/
structure Turns (s t : State) (reports : List (Kind × List Datum)) (alter : View → View) : Prop where
  nameReports_eq : t.nameReports = s.nameReports ++ reports
  viewOf_eq : ∀ id, t.viewOf id =
    if s.stack.head? = some id then alter (s.viewOf id) else s.viewOf id

theorem Turns.of_eq (hreports : t.nameReports = s.nameReports) (hscopes : t.scopes = s.scopes) :
    s.Turns t [] id where
  nameReports_eq := by rw [hreports, append_nil]
  viewOf_eq := fun i => by
    rw [viewOf_of_scopes hscopes]
    split <;> rfl

theorem Says.turns (h : s.Says Kind.besides t) : s.Turns t [] id :=
  .of_eq (h.nameReports_eq Kind.isOnNames_of_besides) h.scopes_eq

theorem Turns.trans {u : State} {first second : List (Kind × List Datum)} {f : View → View}
    (h : s.Turns t first f) (k : t.Turns u second g) (hstack : t.stack = s.stack) :
    s.Turns u (first ++ second) (g ∘ f) where
  nameReports_eq := by rw [k.nameReports_eq, h.nameReports_eq, append_assoc]
  viewOf_eq := fun i => by
    rw [k.viewOf_eq, hstack, h.viewOf_eq]
    split <;> rfl

theorem turns_of_view {id : ScopeId} (hstack : s.stack = id :: rest)
    (hreports : t.nameReports = s.nameReports)
    (hview : ∀ other, t.viewOf other = if other = id then g (s.viewOf id) else s.viewOf other) :
    s.Turns t [] g where
  nameReports_eq := by rw [hreports, append_nil]
  viewOf_eq := fun other => by
    rw [hview, hstack]
    by_cases heq : id = other
    · simp [heq]
    · simp [heq, Ne.symm heq]

theorem turns_modified {id : ScopeId} {c : Scope} {f : Scope → Scope}
    (hstack : s.stack = id :: rest) (hc : s.scope? id = some c)
    (hscopes : t.scopes = s.scopes.modify id f) (hf : (f c).view = g c.view)
    (hreports : t.nameReports = s.nameReports) : s.Turns t [] g :=
  turns_of_view hstack hreports (viewOf_modified hscopes (hc ▸ rfl) fun _ hd =>
    Option.some.inj (hc.symm.trans hd) ▸ hf)

theorem nameReports_of_event {e : Event} (h : t.history = e :: s.history)
    (he : e.nameReport? = none) : t.nameReports = s.nameReports := by
  have hhistory : t.history = [e] ++ s.history := h
  exact nameReports_of_silent hhistory (by simpa using he)

end State

namespace Check

variable {cfg : Setup} {s t : State} {n : Node} {v : Value} {name : Datum}

theorem turns_report {k : Kind} {args : List Datum} (hk : k.isOnNames = true)
    (h : report cfg k v args s = .ok () t) : s.Turns t [(k, s.datumOf v :: args)] id where
  nameReports_eq := by
    have hhistory : t.history = [.reported k (s.datumOf v :: args)] ++ s.history := report_eq_ok h
    rw [State.nameReports_of_history hhistory]
    simp [Event.nameReport?, hk]
  viewOf_eq := fun i => by
    have hspeech := (told_report (mem_singleton.mpr rfl) v args).ok h
    rw [State.viewOf_of_scopes hspeech.scopes_eq]
    split <;> rfl

theorem misses_eq {key : Datum.Key} {visible : List ScopeId}
    (hkey : name.key = .ok key) (hvisible : s.visibleScopes = .ok visible) :
    cfg.misses s.views s.isGuarded name =
      (!((visible.any fun id => (s.binding? id key).isSome) || visible.any s.isStarred ||
        cfg.isBuiltin key || (decide (key = .text "__path__") && cfg.isPackageFile)) &&
          !s.isGuarded) := by
  have hany : (visible.map s.viewOf).any (fun w => decide (key ∈ w.keys) || w.starred) =
      ((visible.any fun id => (s.binding? id key).isSome) || visible.any s.isStarred) := by
    rw [Bool.eq_iff_iff]
    simp [State.mem_keys_viewOf, State.starred_viewOf, and_or_left, exists_or]
  rw [Setup.misses, hkey, State.visible_views hvisible]
  simp only [Setup.accounts, hany]

/-- The outcomes of a load: a binding is used, the name is accounted for otherwise, or it is
reported. -/
theorem load_eq_ok (h : load cfg v s = .ok () t) :
    (v.nameOf? = none ∧ t = s) ∨ ∃ name key visible, v.nameOf? = some name ∧ name.key = .ok key ∧
      s.visibleScopes = .ok visible ∧
      ((∃ id top rest, (visible.find? fun id => (s.binding? id key).isSome) = some id ∧
          s.stack = top :: rest ∧ cfg.misses s.views s.isGuarded name = false ∧
          t = s.withUse id key ⟨top, v⟩) ∨
        ((visible.find? fun id => (s.binding? id key).isSome) = none ∧
          ((cfg.misses s.views s.isGuarded name = false ∧ t = s) ∨
            (cfg.misses s.views s.isGuarded name = true ∧
              report cfg .undefinedName v [name] s = .ok () t)))) := by
  unfold load at h
  cases hname : v.nameOf? with
  | none =>
    rw [hname] at h
    cases h
    exact .inl ⟨rfl, rfl⟩
  | some name =>
    right
    rw [hname] at h
    replace h := get_bind_eq_ok.mp h
    obtain ⟨visible, hvisible, h⟩ := lift_bind_eq_ok.mp h
    obtain ⟨key, hkey, h⟩ := lift_bind_eq_ok.mp h
    refine ⟨name, key, visible, rfl, hkey, hvisible, ?_⟩
    rw [misses_eq hkey hvisible]
    cases hfind : visible.find? fun id => (s.binding? id key).isSome with
    | some id =>
      simp only [hfind] at h
      obtain ⟨top, rest, scope, hstack, hscope, h⟩ := current_bind_eq_ok h
      cases h
      have hany : (visible.any fun id => (s.binding? id key).isSome) = true :=
        find?_isSome.mp (hfind ▸ rfl) |> fun ⟨id, hid, hbound⟩ =>
          any_eq_true.mpr ⟨id, hid, hbound⟩
      exact .inl ⟨id, top, rest, rfl, hstack, by simp [hany], rfl⟩
    | none =>
      simp only [hfind] at h
      refine .inr ⟨rfl, ?_⟩
      have hany : (visible.any fun id => (s.binding? id key).isSome) = false :=
        any_eq_false.mpr fun id hid => find?_eq_none.mp hfind id hid
      simp only [hany, Bool.false_or]
      split at h
      · rename_i hknown
        cases h
        exact .inl ⟨by simp [hknown], rfl⟩
      · rename_i hunknown
        split at h
        · rename_i hpath
          cases h
          exact .inl ⟨by simp [hpath.1, hpath.2], rfl⟩
        · rename_i hpath
          obtain ⟨guarded, hguarded, h⟩ := lift_bind_eq_ok.mp h
          have hguard : s.isGuarded = guarded := by rw [State.isGuarded, hguarded]
          cases guarded with
          | true =>
            cases h
            exact .inl ⟨by simp [hguard], rfl⟩
          | false =>
            refine .inr ⟨?_, h⟩
            have hno : (decide (key = .text "__path__") && cfg.isPackageFile) = false := by
              rw [Bool.eq_false_iff]
              simpa using hpath
            rw [Bool.not_eq_true] at hunknown
            rw [hguard, hunknown, hno]
            rfl

theorem store_eq_ok (h : store cfg n s = .ok () t) :
    ((Value.node n).nameOf? = none ∧ t = s) ∨ ∃ name key top rest scope kind source r,
      (Value.node n).nameOf? = some name ∧ name.key = .ok key ∧ s.stack = top :: rest ∧
      s.scope? top = some scope ∧
      storeKind scope (s.parent? n) key n = .ok (kind, source) ∧
      ((s.usedBefore? n = none ∧ r = s) ∨ ∃ use b, s.usedBefore? n = some (name, use, b) ∧
        report cfg .undefinedLocal use.node [name, s.datumOf b.source] s = .ok () r) ∧
      bind cfg n ⟨name, kind, source, (scope.find? key).bind (·.used)⟩ true r = .ok () t := by
  unfold store at h
  cases hname : (Value.node n).nameOf? with
  | none =>
    rw [hname] at h
    cases h
    exact .inl ⟨rfl, rfl⟩
  | some name =>
    right
    rw [hname] at h
    obtain ⟨top, rest, scope, hstack, hscope, h⟩ := current_bind_eq_ok h
    obtain ⟨key, hkey, h⟩ := lift_bind_eq_ok.mp h
    obtain ⟨_, r, hreport, h⟩ := bind_apply_eq_ok.mp h
    replace h := get_bind_eq_ok.mp h
    obtain ⟨⟨kind, source⟩, hkind, h⟩ := lift_bind_eq_ok.mp h
    have hmarks := ((told_reportUsedBefore _ _ _ _).ok hreport).alike.marks_eq
    rw [State.parent?, State.mark?, hmarks] at hkind
    refine ⟨name, key, top, rest, scope, kind, source, r, rfl, hkey, hstack, hscope, hkind, ?_, h⟩
    have hbefore : s.usedBefore? n =
        if scope.kind = .function ∧ !scope.has key ∧ !scope.isGlobal key then
          (s.usedOutside? top key).map fun (use, b) => (name, use, b) else none := by
      simp only [State.usedBefore?, hname, hkey, hstack, Option.bind_eq_bind, Option.bind_some,
        Except.toOption, head?_cons]
      refine if_congr ?_ rfl rfl
      rw [State.viewOf_of_scope hscope, Scope.mem_keys_view, Scope.mem_globals_view, Scope.view]
      simp
    rw [hbefore]
    unfold reportUsedBefore at hreport
    split at hreport
    · rename_i hcond
      rw [if_pos hcond]
      replace hreport := get_bind_eq_ok.mp hreport
      cases hused : s.usedOutside? top key with
      | none =>
        rw [hused] at hreport
        cases hreport
        exact .inl ⟨rfl, rfl⟩
      | some found =>
        obtain ⟨use, b⟩ := found
        rw [hused] at hreport
        obtain ⟨d, _, hd, hreport⟩ := bind_apply_eq_ok.mp hreport
        rw [datum_apply] at hd
        cases hd
        exact .inr ⟨use, b, rfl, hreport⟩
    · rename_i hcond
      rw [if_neg hcond]
      cases hreport
      exact .inl ⟨rfl, rfl⟩

theorem delete_eq_ok (h : delete cfg n s = .ok () t) :
    ((Value.node n).nameOf? = none ∧ t = s) ∨ ∃ name key top rest scope,
      (Value.node n).nameOf? = some name ∧ name.key = .ok key ∧ s.stack = top :: rest ∧
      s.scope? top = some scope ∧
      ((scope.kind = .function ∧ scope.isGlobal key = true ∧
          t = { s with scopes := s.scopes.modify top (·.forgetGlobal key) }) ∨
        (¬ (scope.kind = .function ∧ scope.isGlobal key = true) ∧
          ((scope.has key = true ∧ t = s.withoutBinding top key) ∨
            (scope.has key = false ∧ report cfg .undefinedName (.node n) [name] s = .ok () t)))) := by
  unfold delete at h
  cases hname : (Value.node n).nameOf? with
  | none =>
    rw [hname] at h
    cases h
    exact .inl ⟨rfl, rfl⟩
  | some name =>
    right
    rw [hname] at h
    obtain ⟨top, rest, scope, hstack, hscope, h⟩ := current_bind_eq_ok h
    obtain ⟨key, hkey, h⟩ := lift_bind_eq_ok.mp h
    refine ⟨name, key, top, rest, scope, rfl, hkey, hstack, hscope, ?_⟩
    split at h
    · rename_i hglobal
      cases h
      exact .inl ⟨hglobal.1, hglobal.2, rfl⟩
    · rename_i hglobal
      refine .inr ⟨hglobal, ?_⟩
      split at h
      · rename_i hhas
        cases h
        exact .inl ⟨hhas, rfl⟩
      · rename_i hhas
        exact .inr ⟨Bool.not_eq_true _ ▸ hhas, h⟩

theorem turns_withUse (id : ScopeId) (key : Datum.Key) (use : Use) :
    s.Turns (s.withUse id key use) [] fun w => w where
  nameReports_eq := by
    have hhistory : (s.withUse id key use).history = .loaded id key use :: s.history := rfl
    rw [State.nameReports_of_event hhistory rfl, append_nil]
  viewOf_eq := fun other => by
    have hscopes : (s.withUse id key use).scopes = s.scopes.modify id (·.markUsed key use) := rfl
    rw [ite_self, State.viewOf, State.viewOf, State.scope?_modified hscopes]
    split
    · rename_i heq
      subst heq
      cases s.scope? other with
      | none => rfl
      | some c => exact Scope.view_markUsed use
    · rfl

theorem turns_load (h : load cfg v s = .ok () t) :
    s.Turns t (Act.nameReports cfg s (.load v)) (Act.alter (.load v)) := by
  have hsilent (hv : v.nameOf?.filter (cfg.misses s.views s.isGuarded) = none) :
      Act.nameReports cfg s (.load v) = [] := by simp [Act.nameReports, hv]
  rcases load_eq_ok h with ⟨hname, rfl⟩ | ⟨name, key, visible, hname, -, -, hend⟩
  · rw [hsilent (by simp [hname])]
    exact .of_eq rfl rfl
  rcases hend with ⟨id, top, rest, -, -, hmisses, rfl⟩ | ⟨-, ⟨hmisses, rfl⟩ | ⟨hmisses, hreport⟩⟩
  · rw [hsilent (by simp [hname, Option.filter, hmisses])]
    exact turns_withUse id key _
  · rw [hsilent (by simp [hname, Option.filter, hmisses])]
    exact .of_eq rfl rfl
  · have hreports : Act.nameReports cfg s (.load v) = [(.undefinedName, [s.datumOf v, name])] := by
      simp [Act.nameReports, hname, Option.filter, hmisses]
    rw [hreports]
    exact turns_report (by decide) hreport

theorem turns_bind {b : Binding} {reportsHidden : Bool}
    (h : bind cfg n b reportsHidden s = .ok () t) :
    s.Turns t [] (Act.alter (.bind n b reportsHidden)) := by
  obtain ⟨top, rest, key, r, es, hstack, hscope, hkey, hspeech, -, hend⟩ := bind_eq_ok h
  obtain ⟨c, hc⟩ := Option.isSome_iff_exists.mp hscope
  have halter : Act.alter (.bind n b reportsHidden) = fun w => w.bind key := by
    funext w
    simp [Act.alter, hkey, Except.toOption]
  have hc' : r.scope? top = some c := by rwa [State.scope?, hspeech.scopes_eq]
  have hreports := hspeech.nameReports_eq Kind.isOnNames_of_besides
  have hstack' : r.stack = top :: rest := hspeech.alike.stack_eq.trans hstack
  have hturns : r.Turns t [] fun w => w.bind key := by
    rcases hend with ⟨rfl, -⟩ | ⟨rfl, old, hold, -⟩
    · have hinsert : (c.insert key b).view = c.view.bind key := Scope.view_insert b
      exact State.turns_modified (f := (·.insert key b)) hstack' hc' rfl hinsert
        (State.nameReports_of_event rfl rfl)
    · have hhas : c.has key = true := by
        rw [State.binding?, hc, Option.bind_some] at hold
        simp [Scope.has, hold]
      refine State.turns_of_view hstack' (State.nameReports_of_event rfl rfl) fun other => ?_
      have hview : (r.withRefusal top key n b).viewOf other = r.viewOf other := rfl
      rw [hview, State.viewOf_of_scope hc', Scope.view_bind_of_has hhas]
      split
      · rename_i heq
        rw [heq, State.viewOf_of_scope hc']
      · rfl
  rw [halter]
  exact hspeech.turns.trans hturns hspeech.alike.stack_eq

theorem turns_store (h : store cfg n s = .ok () t) :
    s.Turns t (Act.nameReports cfg s (.store n)) (Act.alter (.store n)) := by
  rcases store_eq_ok h with ⟨hname, rfl⟩ |
    ⟨name, key, top, rest, scope, kind, source, r, hname, hkey, hstack, -, -, hbefore, hbind⟩
  · have hnone : t.usedBefore? n = none := by simp [State.usedBefore?, hname]
    have halter : Act.alter (.store n) = fun w => w := by
      funext w
      simp [Act.alter, hname]
    rw [Act.nameReports, hnone, halter]
    exact .of_eq rfl rfl
  · have halter (b : Binding) (hb : b.name = name) :
        Act.alter (.store n) = Act.alter (.bind n b true) := by
      funext w
      simp [Act.alter, hname, hb]
    have hturns := turns_bind hbind
    rw [halter ⟨name, kind, source, (scope.find? key).bind (·.used)⟩ rfl]
    rcases hbefore with ⟨hnone, rfl⟩ | ⟨use, b, hsome, hreport⟩
    · rw [Act.nameReports, hnone]
      exact hturns
    · have hfirst := turns_report (by decide) hreport
      have hspeech := (told_report (mem_singleton.mpr rfl) _ _).ok hreport
      rw [Act.nameReports, hsome]
      exact hfirst.trans hturns hspeech.alike.stack_eq

theorem turns_delete (h : delete cfg n s = .ok () t) :
    s.Turns t (Act.nameReports cfg s (.delete n)) (Act.alter (.delete n)) := by
  rcases delete_eq_ok h with ⟨hname, rfl⟩ |
    ⟨name, key, top, rest, scope, hname, hkey, hstack, hscope, hend⟩
  · have halter : Act.alter (.delete n) = fun w => w := by
      funext w
      simp [Act.alter, hname]
    have hsilent : Act.nameReports cfg t (.delete n) = [] := by simp [Act.nameReports, hname]
    rw [halter, hsilent]
    exact .of_eq rfl rfl
  have halter : Act.alter (.delete n) = fun w =>
      if w.kind = .function ∧ key ∈ w.globals then w.forget key else w.drop key := by
    funext w
    simp [Act.alter, hname, hkey, Except.toOption]
  have hlacks : View.lacks s.views name = (!(decide (scope.kind = .function) &&
      scope.isGlobal key) && !scope.has key) := by
    have hviews : s.views = scope.view :: rest.map s.viewOf := by
      rw [State.views, hstack, map_cons, State.viewOf_of_scope hscope]
    have hglobals : decide (key ∈ scope.view.globals) = scope.isGlobal key := by
      rw [Bool.eq_iff_iff, decide_eq_true_eq]
      exact Scope.mem_globals_view
    have hkeys : decide (key ∈ scope.view.keys) = scope.has key := by
      rw [Bool.eq_iff_iff, decide_eq_true_eq]
      exact Scope.mem_keys_view
    simp only [View.lacks, hkey, hviews, hglobals, hkeys]
    rfl
  have hsilent (hno : View.lacks s.views name = false) :
      Act.nameReports cfg s (.delete n) = [] := by
    simp [Act.nameReports, hname, Option.filter, hno]
  rw [halter]
  rcases hend with ⟨hkind, hglobal, rfl⟩ | ⟨hglobal, ⟨hhas, rfl⟩ | ⟨hhas, hreport⟩⟩
  · rw [hsilent (by simp [hlacks, hkind, hglobal])]
    refine State.turns_modified (f := (·.forgetGlobal key)) hstack hscope rfl ?_ rfl
    rw [if_pos ⟨hkind, Scope.mem_globals_view.mpr hglobal⟩, Scope.view_forgetGlobal]
  · rw [hsilent (by simp [hlacks, hhas])]
    refine State.turns_modified (f := (·.erase key)) hstack hscope rfl ?_
      (State.nameReports_of_event rfl rfl)
    rw [if_neg fun hcond => hglobal ⟨hcond.1, Scope.mem_globals_view.mp hcond.2⟩, Scope.view_erase]
  · have hreports : Act.nameReports cfg s (.delete n) =
        [(.undefinedName, [s.datumOf (.node n), name])] := by
      have hno : (decide (scope.kind = .function) && scope.isGlobal key) = false := by
        rw [Bool.eq_false_iff]
        simpa using hglobal
      have hyes : View.lacks s.views name = true := by
        rw [hlacks, hhas, hno]
        rfl
      simp [Act.nameReports, hname, Option.filter, hyes]
    have hturns := turns_report (by decide) hreport
    rw [hreports]
    refine ⟨hturns.nameReports_eq, fun other => ?_⟩
    rw [hturns.viewOf_eq, hstack]
    by_cases heq : top = other
    · subst heq
      have hdrop : ¬ (scope.view.kind = .function ∧ key ∈ scope.view.globals) :=
        fun hcond => hglobal ⟨hcond.1, Scope.mem_globals_view.mp hcond.2⟩
      rw [head?_cons, if_pos rfl, if_pos rfl, State.viewOf_of_scope hscope, if_neg hdrop,
        Scope.view_drop_of_not_has hhas]
      rfl
    · simp [heq]

theorem turns_declareGlobal (h : declareGlobal name s = .ok () t) :
    ∃ key, name.key = .ok key ∧ s.Turns t [] (·.declare key) := by
  obtain ⟨top, rest, scope, hstack, hscope, h⟩ := current_bind_eq_ok h
  obtain ⟨declared, hdeclared, h⟩ := lift_bind_eq_ok.mp h
  obtain ⟨key, hkey, hview⟩ := Scope.exists_declare hdeclared
  cases h
  exact ⟨key, hkey, State.turns_modified (f := fun _ => declared) hstack hscope rfl hview rfl⟩

theorem turns_globals (h : ruleGlobal n s = .ok () t) : s.Turns t [] (Act.alter (.globals n)) := by
  have hall {items : List Value} {s : State}
      (h : (items.forM fun name => declareGlobal name.datum) s = .ok () t) :
      s.Turns t [] ((items.filterMap (·.datum.key.toOption)).foldl View.declare) := by
    induction items generalizing s with
    | nil =>
      cases h
      exact .of_eq rfl rfl
    | cons name rest ih =>
      obtain ⟨_, r, hfirst, hrest⟩ := bind_apply_eq_ok.mp h
      obtain ⟨key, hkey, hturns⟩ := turns_declareGlobal hfirst
      have hboth := hturns.trans (ih hrest) ((quiet_declareGlobal _).ok hfirst).stack_eq
      rwa [filterMap_cons, hkey]
  obtain ⟨top, rest, scope, hstack, hscope, h⟩ := current_bind_eq_ok h
  have hkind : (s.viewOf top).kind = scope.kind := by rw [State.viewOf_of_scope hscope, Scope.view]
  have hturns {f : View → View} (hf : s.Turns t [] f)
      (heq : Act.alter (.globals n) (s.viewOf top) = f (s.viewOf top)) :
      s.Turns t [] (Act.alter (.globals n)) := by
    refine ⟨hf.nameReports_eq, fun id => ?_⟩
    rw [hf.viewOf_eq]
    split
    · rename_i hid
      rw [hstack, head?_cons] at hid
      rw [← Option.some.inj hid, heq]
    · rfl
  dsimp only at h
  split at h
  · rename_i hfunction
    obtain ⟨items, hitems, h⟩ := lift_bind_eq_ok.mp h
    refine hturns (hall h) ?_
    simp only [Act.alter, hitems, Except.toOption, Option.getD_some]
    rw [if_pos (hkind.trans hfunction)]
  · rename_i hfunction
    cases h
    refine hturns (f := fun w => w) (.of_eq rfl rfl) ?_
    rw [Act.alter, if_neg (hkind ▸ hfunction)]

theorem turns_star {module : Value} (h : importStar cfg n module s = .ok () t) :
    s.Turns t [] (Act.alter (.star n module)) := by
  obtain ⟨top, rest, scope, hstack, hscope, h⟩ := current_bind_eq_ok h
  obtain ⟨_, r, hupdate, h⟩ := bind_apply_eq_ok.mp h
  cases hupdate
  obtain ⟨d, _, hd, h⟩ := bind_apply_eq_ok.mp h
  rw [datum_apply] at hd
  cases hd
  have hkind : .importStarUsed ∈ Kind.besides := by simp [Kind.besides]
  have hspeech := (told_report hkind _ _).ok h
  have hfirst := State.turns_modified (f := fun scope => { scope with starred := true })
    (t := { s with scopes := s.scopes.modify top fun scope => { scope with starred := true } })
    (g := Act.alter (.star n module)) hstack hscope rfl rfl rfl
  exact hfirst.trans hspeech.turns rfl

theorem turns_locals (h : noteLocals n s = .ok () t) : s.Turns t [] fun w => w := by
  obtain ⟨v, -, h⟩ := lift_bind_eq_ok.mp h
  have hstays (heq : t = s) : s.Turns t [] fun w => w := heq ▸ .of_eq rfl rfl
  split at h
  · obtain ⟨top, rest, scope, hstack, hscope, h⟩ := current_bind_eq_ok h
    dsimp only at h
    split at h
    · replace h := get_bind_eq_ok.mp h
      split at h
      · cases h
        exact State.turns_modified (f := fun scope => { scope with usesLocals := true }) hstack
          hscope rfl rfl rfl
      · cases h
        exact hstays rfl
    · cases h
      exact hstays rfl
  · cases h
    exact hstays rfl

theorem turns_act {m : Node} {a : Act} (ha : a.IsFrom m) (h : a.run cfg s = .ok () t) :
    s.Turns t (a.nameReports cfg s) a.alter := by
  cases a with
  | load v => exact turns_load h
  | store n => exact turns_store h
  | delete n => exact turns_delete h
  | bind n b reportsHidden => exact turns_bind h
  | globals n => exact turns_globals h
  | locals n => exact turns_locals h
  | star n module => exact turns_star h
  | callee n => exact ((told_checkCallee n).ok h).turns
  | shadowing n name => exact ((told_reportShadowing n name).ok h).turns
  | lateImports =>
    cases h
    exact .of_eq rfl rfl
  | report k subject args =>
    have hkinds : Kind.ofRules ⊆ Kind.besides := by simp [Kind.ofRules, Kind.besides]
    exact ((told_report (hkinds ha) subject args).ok h).turns

end Check

end ScopeLint
