import Mathlib.Algebra.Order.Group.Multiset
import Mathlib.Data.Multiset.Bind
import ScopeLint.Proofs.Checker.Placement
import ScopeLint.Proofs.Checker.Places

/-! # The ledger of a check

Each node that is dispatched is entered with the scopes that its rule opens and with the work that
it puts off. A visit enters no more nodes than there are in the value, and among those that it
leaves out are the nodes of the bodies that it puts off: they are kept for later. -/
namespace ScopeLint

open List

open scoped List

variable {ns : Multiset Node} {v : Value} {m n : Node} {s t : State}

namespace Value

def nodesOf (vs : List Value) : Multiset Node := (vs.flatMap nodes : List Node)

@[simp]
theorem nodesOf_nil : nodesOf [] = 0 := rfl

@[simp]
theorem nodesOf_append (vs ws : List Value) : nodesOf (vs ++ ws) = nodesOf vs + nodesOf ws := by
  simp [nodesOf]

theorem nodesOf_mono {vs ws : List Value} (h : vs <+~ ws) : nodesOf vs ≤ nodesOf ws := by
  obtain ⟨kept, hperm, hsub⟩ := h
  have heq : nodesOf kept = nodesOf vs := Multiset.coe_eq_coe.mpr (hperm.flatMap_right _)
  rw [← heq]
  exact Multiset.coe_le.mpr (hsub.flatMap _).subperm

theorem nodes_subperm_of_mem {vs : List Value} {ns : List Node} (hv : v ∈ vs)
    (h : vs.flatMap nodes <+~ ns) : v.nodes <+~ ns := by
  have hsub : v.nodes <+ (vs.map nodes).flatten :=
    sublist_flatten_of_mem (mem_map_of_mem hv)
  exact hsub.subperm.trans h

end Value

/-- The nodes that a duty is about to visit, the examples of docstrings apart. -/
def Duty.nodes : Duty → Multiset Node
  | .body n => Value.nodesOf n.deferred
  | .doctests _ => 0

/-- Scopes that are opened, and work that is put off. -/
abbrev Account := Multiset ScopeKind × Multiset Duty

namespace Setup

/-- The doctests of a definition, if doctests are checked. -/
def doctestsOf (cfg : Setup) (n : Node) : Multiset Duty :=
  if cfg.doctests then {.doctests n} else 0

/-- What the rule for a node opens and puts off. -/
def ruleAccount (cfg : Setup) (n : Node) : Rule → Account
  | .generatorExp | .dictComp => ({.generator}, 0)
  | .classDef => ({.classBody}, cfg.doctestsOf n)
  | .functionDef => (0, {.body n} + cfg.doctestsOf n)
  | .lambda => (0, {.body n})
  | _ => 0

def nodeAccount (cfg : Setup) (n : Node) : Account :=
  match Rule.of? n.kind with
  | some rule => cfg.ruleAccount n rule
  | none => 0

def account (cfg : Setup) (ns : Multiset Node) : Account := (ns.map cfg.nodeAccount).sum

/-- The nodes that are kept for the bodies of some nodes. -/
def kept (cfg : Setup) (ns : Multiset Node) : Multiset Node := (cfg.account ns).2.bind Duty.nodes

variable (cfg : Setup)

@[simp]
theorem account_zero : cfg.account 0 = 0 := rfl

@[simp]
theorem account_add (ns ms : Multiset Node) :
    cfg.account (ns + ms) = cfg.account ns + cfg.account ms := by
  simp [account]

@[simp]
theorem account_singleton (n : Node) : cfg.account {n} = cfg.nodeAccount n := by
  simp [account]

@[simp]
theorem kept_zero : cfg.kept 0 = 0 := rfl

@[simp]
theorem kept_add (ns ms : Multiset Node) : cfg.kept (ns + ms) = cfg.kept ns + cfg.kept ms := by
  simp [kept]

/-- Doctests bring trees of their own. -/
theorem bind_doctestsOf (n : Node) : (cfg.doctestsOf n).bind Duty.nodes = 0 := by
  unfold doctestsOf
  split <;> simp [Duty.nodes]

theorem body_notMem_doctestsOf (n m : Node) : .body n ∉ cfg.doctestsOf m := by
  unfold doctestsOf
  split <;> simp

/-- Only the rule for a function puts its body off. -/
theorem eq_of_body_mem_nodeAccount (h : .body n ∈ (cfg.nodeAccount m).2) : n = m := by
  rw [nodeAccount] at h
  split at h
  · rename_i rule _
    cases rule <;> simp [ruleAccount, body_notMem_doctestsOf] at h <;> exact h
  · simp at h

theorem mem_of_body_mem_account (h : .body n ∈ (cfg.account ns).2) : n ∈ ns := by
  induction ns using Multiset.induction_on with
  | empty => simp at h
  | cons m ns ih =>
    rw [← Multiset.singleton_add, account_add, account_singleton, Prod.snd_add,
      Multiset.mem_add] at h
    rcases h with h | h
    · rw [cfg.eq_of_body_mem_nodeAccount h]
      exact Multiset.mem_cons_self _ _
    · exact Multiset.mem_cons_of_mem (ih h)

/-- What is visited below a node now and what is kept of it are different parts of it. -/
theorem kept_add_handed_le (n : Node) :
    cfg.kept {n} + Value.nodesOf (n.handed cfg.dialect) ≤ n.below := by
  have hkept : cfg.kept {n} = Value.nodesOf (if n.isFunction then n.deferred else []) := by
    rw [kept, account_singleton, nodeAccount]
    unfold NodeOf.isFunction
    cases Rule.of? n.kind with
    | none => rfl
    | some rule => cases rule <;> simp [ruleAccount, Duty.nodes, bind_doctestsOf]
  rw [hkept, add_comm, ← Value.nodesOf_append]
  exact Multiset.coe_le.mpr (n.flatMap_parts_subperm cfg.dialect)

end Setup

/-- The node of a number that a mark is for: it is below the nearest node above it. -/
def Mark.node? (mark : Mark) (id : Nat) : Option Node :=
  mark.ancestors.head?.bind fun parent => parent.nodes.find? (·.id == id)

namespace State

/-- The nodes that have been dispatched so far, latest first: each dispatch leaves a mark. -/
def dispatched (s : State) : List Node := s.marks.filterMap fun m => m.2.node? m.1

def kinds (s : State) : List ScopeKind := s.scopes.toList.map (·.kind)

def queued (s : State) : List Deferred := (s.functions.getD #[]).toList

def account (s : State) : Account := (s.kinds, s.queued.filterMap (·.task.duty?))

/-- All marks are for nodes. -/
def Resolved (s : State) : Prop := s.dispatched.map (·.id) = s.marks.map (·.1)

/-- Every scope has been closed once, or is one of `others`. -/
def ClosedBut (s : State) (others : List ScopeId) : Prop :=
  s.dead.toList ++ others ~ List.range s.scopes.size

def movedIds (s : State) : List Nat := s.moved.map (·.1)

/-- From one state to another, no nodes but `ns` have been moved, each once. -/
def Touches (s t : State) (ns : Multiset Node) : Prop :=
  (t.movedIds : Multiset Nat) ≤ s.movedIds + ns.map (·.id)

/-- From one state to another that has come back to the same stack, the nodes `ns` have been
dispatched, and scopes and work have been entered. -/
structure Adds (s t : State) (ns : Multiset Node) (a : Account) : Prop where
  stack_eq : t.stack = s.stack
  nextNode_le : s.nextNode ≤ t.nextNode
  touched : s.Touches t ns
  queued : s.queued <+: t.queued
  resolved : s.Resolved → t.Resolved
  closed : ∀ others, s.ClosedBut others → t.ClosedBut others
  dispatched : (t.dispatched : Multiset Node) = s.dispatched + ns
  account : t.account = s.account + a
  distinct : ∀ m ∈ ns, m.Distinct

/-- Nodes that have got their numbers in between. -/
structure Fresh (s t : State) (fresh : Multiset Node) : Prop where
  nodup : (fresh.map (·.id)).Nodup
  bounds : ∀ m ∈ fresh, s.nextNode ≤ m.id ∧ m.id < t.nextNode

variable {u : State} {ms : Multiset Node} {a : Account}

theorem touches_of_eq (h : t.moved = s.moved) (ns : Multiset Node) : s.Touches t ns := by
  rw [Touches, movedIds, h]
  exact Multiset.le_add_right _ _

theorem Touches.trans (h : s.Touches t ns) (k : t.Touches u ms) : s.Touches u (ns + ms) := by
  rw [Touches, Multiset.map_add, ← add_assoc]
  exact le_trans k (add_le_add_left h _)

theorem Adds.trans {b : Account} (h : s.Adds t ns a) (k : t.Adds u ms b) :
    s.Adds u (ns + ms) (a + b) where
  stack_eq := k.stack_eq.trans h.stack_eq
  nextNode_le := Nat.le_trans h.nextNode_le k.nextNode_le
  touched := h.touched.trans k.touched
  queued := h.queued.trans k.queued
  resolved := fun hs => k.resolved (h.resolved hs)
  closed := fun others hs => k.closed others (h.closed others hs)
  dispatched := by rw [k.dispatched, h.dispatched, add_assoc]
  account := by rw [k.account, h.account, add_assoc]
  distinct := fun m hm => (Multiset.mem_add.mp hm).elim (h.distinct m) (k.distinct m)

theorem Adds.of_eq (hstack : t.stack = s.stack) (hnext : t.nextNode = s.nextNode)
    (hmoved : t.moved = s.moved) (hfunctions : t.functions = s.functions)
    (hmarks : t.marks = s.marks) (hdead : t.dead = s.dead) (hkinds : t.kinds = s.kinds) :
    s.Adds t 0 0 := by
  have hqueued : t.queued = s.queued := by rw [State.queued, hfunctions, State.queued]
  have hdispatched : t.dispatched = s.dispatched := by
    rw [State.dispatched, hmarks, State.dispatched]
  have hsize : t.scopes.size = s.scopes.size := by
    simpa [State.kinds] using congrArg length hkinds
  refine ⟨hstack, Nat.le_of_eq hnext.symm, touches_of_eq hmoved 0, ?_, ?_, fun others hs => ?_, ?_,
    ?_, by simp⟩
  · rw [hqueued]
  · unfold Resolved
    rw [hdispatched, hmarks]
    exact id
  · rwa [ClosedBut, hdead, hsize]
  · rw [hdispatched, add_zero]
  · rw [State.account, hkinds, hqueued, add_zero, State.account]

theorem Alike.kinds_eq (h : s.Alike t) : t.kinds = s.kinds := by
  refine ext_getElem? fun i => ?_
  have hkind := h.kindOf_eq i
  simp only [State.kindOf, State.scope?] at hkind
  simpa [State.kinds] using hkind

theorem Fixed.adds (h : s.Fixed t) : s.Adds t 0 0 :=
  .of_eq h.stack_eq h.nextNode_eq h.moved_eq h.functions_eq h.marks_eq h.dead_eq h.toAlike.kinds_eq

theorem Fresh.zero (s t : State) : s.Fresh t 0 := ⟨by simp, by simp⟩

theorem Fresh.add {xs ys : Multiset Node} (h : s.Fresh t xs) (k : t.Fresh u ys)
    (hst : s.nextNode ≤ t.nextNode) (htu : t.nextNode ≤ u.nextNode) : s.Fresh u (xs + ys) := by
  constructor
  · rw [Multiset.map_add, Multiset.nodup_add]
    refine ⟨h.nodup, k.nodup, Multiset.disjoint_left.mpr ?_⟩
    intro id hx hy
    obtain ⟨m, hm, rfl⟩ := Multiset.mem_map.mp hx
    obtain ⟨m', hm', hid⟩ := Multiset.mem_map.mp hy
    have hlt := (h.bounds m hm).2
    have hge := (k.bounds m' hm').1
    omega
  · intro m hm
    rcases Multiset.mem_add.mp hm with hm | hm
    · have := h.bounds m hm
      omega
    · have := k.bounds m hm
      omega

/-- A node in a place of its own below a node without shared nodes. -/
theorem dispatched_entered (s : State) (hn : n.Distinct) (hm : m ∈ n.nodes) :
    (s.entered m n).dispatched = m :: s.dispatched := by
  have hfind : n.nodes.find? (·.id == m.id) = some m := by
    cases hf : n.nodes.find? (·.id == m.id) with
    | none => simpa using find?_eq_none.mp hf m hm
    | some found =>
      have hid : found.id = m.id := by simpa using find?_some hf
      rw [hn.eq_of_id (mem_of_find?_eq_some hf) hm hid]
  simp [State.dispatched, entered, Mark.node?, lineage, hfind]

theorem adds_entered (hn : n.Distinct) (hm : m ∈ n.nodes) (hself : m.Distinct) :
    s.Adds (s.entered m n) {m} 0 := by
  have hdispatched := s.dispatched_entered hn hm
  refine ⟨rfl, Nat.le_refl _, touches_of_eq rfl _, prefix_refl _, fun hs => ?_, fun _ hs => hs,
    ?_, ?_, ?_⟩
  · have hs : s.dispatched.map (·.id) = s.marks.map (·.1) := hs
    rw [Resolved, hdispatched, map_cons, hs]
    rfl
  · rw [hdispatched, add_comm, Multiset.singleton_add, Multiset.cons_coe]
  · exact (add_zero _).symm
  · simpa using hself

theorem adds_moved_entered (hn : n.Distinct) (hm : m ∈ n.nodes) (hself : m.Distinct)
    (halike : s.Alike t) (htouches : s.Touches t {m}) : s.Adds (t.entered m n) {m} 0 := by
  have hfixed : ({ s with moved := t.moved } : State).Fixed t :=
    ⟨⟨halike.size_eq, halike.kindOf_eq, halike.stack_eq, halike.dead_eq, halike.functions_eq,
      halike.assignments_eq, halike.borrowed_eq, halike.guards_eq, halike.depth_eq, halike.shift_eq,
      halike.marks_eq, halike.nextNode_eq, halike.futures⟩, rfl⟩
  have hall := hfixed.adds.trans (adds_entered hn hm hself)
  rw [zero_add, zero_add] at hall
  exact { hall with touched := htouches }

theorem adds_withTask {entries : Array Deferred} (h : s.functions = some entries) {task : Task}
    {duty : Duty} (hduty : task.duty? = some duty) :
    s.Adds (s.withTask .functions entries task) 0 (0, {duty}) := by
  have hqueued : (s.withTask .functions entries task).queued =
      s.queued ++ [⟨task, s.stack, s.shift⟩] := by
    simp [State.queued, withTask, setQueue, h]
  refine ⟨rfl, Nat.le_refl _, touches_of_eq rfl _, ?_, fun hs => hs, fun _ hs => hs,
    (add_zero _).symm, ?_, by simp⟩
  · rw [hqueued]
    exact prefix_append _ _
  · rw [State.account, hqueued, filterMap_append]
    simp [State.account, hduty, State.kinds, withTask, setQueue, ← Multiset.coe_add]

theorem Adds.inScope {kind : ScopeKind} {id : ScopeId} {rest : List ScopeId}
    (h : (s.opened kind).Adds t ns a) (hstack : t.stack = id :: rest) :
    s.Adds (t.closed id rest) ns (({kind}, 0) + a) := by
  obtain ⟨rfl, rfl⟩ : s.scopes.size = id ∧ s.stack = rest :=
    cons.inj (h.stack_eq.symm.trans hstack)
  refine ⟨rfl, h.nextNode_le, h.touched, h.queued, h.resolved, fun others hs => ?_, h.dispatched, ?_,
    h.distinct⟩
  · have hopened : (s.opened kind).ClosedBut (s.scopes.size :: others) := by
      have hsize : (s.opened kind).scopes.size = s.scopes.size + 1 := by simp [opened]
      rw [ClosedBut, hsize, range_succ]
      have hlast := (perm_append_singleton s.scopes.size (range s.scopes.size)).symm
      exact perm_middle.trans ((List.Perm.cons _ hs).trans hlast)
    have hclosed := h.closed _ hopened
    rw [ClosedBut] at hclosed ⊢
    simpa [State.closed] using hclosed
  · have hopened : (s.opened kind).account = s.account + ({kind}, 0) := by
      simp [State.account, State.kinds, opened, State.queued, Scope.empty, ← Multiset.coe_add]
    rw [← add_assoc, ← hopened]
    exact h.account

end State

namespace Check

variable {cfg : Setup} {α β : Type} {own other : Account} {vs ws : Multiset Node} {act : Check Unit}
  {f : α → Check β}

/-- From one state to another, no nodes but some of `vs` and some with new numbers have been moved,
each once. -/
def Spends (vs : Multiset Node) (s t : State) : Prop :=
  ∃ ns fresh, ns ≤ vs + fresh ∧ s.Fresh t fresh ∧ s.nextNode ≤ t.nextNode ∧ s.Touches t ns

theorem spends_of_eq (hnext : t.nextNode = s.nextNode) (hmoved : t.moved = s.moved) :
    Spends vs s t :=
  ⟨0, 0, Multiset.zero_le _, .zero s t, Nat.le_of_eq hnext.symm, State.touches_of_eq hmoved 0⟩

/-- The step dispatches nodes of `vs`, and some with new numbers, and keeps the nodes of the bodies
that it puts off; beside what those nodes account for, it opens and puts off `own`. Also where it
fails, it has moved no others, and none twice. -/
structure Tallies (cfg : Setup) (own : Account) (vs : Multiset Node) (act : Check α) : Prop where
  ok : ∀ s a t, act s = .ok a t → ∃ ns fresh, ns + cfg.kept ns ≤ vs + fresh ∧ s.Fresh t fresh ∧
    s.Adds t ns (own + cfg.account ns)
  fail : ∀ s e t, act s = .error e t → Spends vs s t

theorem tallies_of_adds {act : Check α} (hok : ∀ s a t, act s = .ok a t → s.Adds t 0 own)
    (hfail : ∀ s e t, act s = .error e t → t = s) : Tallies cfg own 0 act where
  ok := by
    intro s a t ha
    refine ⟨0, 0, by simp, .zero s t, ?_⟩
    rw [Setup.account_zero, add_zero]
    exact hok s a t ha
  fail := by
    intro s e t ha
    obtain rfl := hfail s e t ha
    exact spends_of_eq rfl rfl

theorem Steady.tallies {act : Check α} (h : Steady act) : Tallies cfg 0 0 act where
  ok := by
    intro s a t ha
    refine ⟨0, 0, by simp, .zero s t, ?_⟩
    rw [Setup.account_zero, add_zero]
    exact (h.ok ha).adds
  fail := fun s e t ha => spends_of_eq (h.fail ha).nextNode_eq (h.fail ha).moved_eq

theorem Tallies.mono {act : Check α} (h : Tallies cfg own vs act) (hle : vs ≤ ws) :
    Tallies cfg own ws act where
  ok := by
    intro s a t ha
    obtain ⟨ns, fresh, hns, hfresh, hadds⟩ := h.ok s a t ha
    exact ⟨ns, fresh, hns.trans (add_le_add_left hle _), hfresh, hadds⟩
  fail := by
    intro s e t ha
    obtain ⟨ns, fresh, hns, hfresh, htouches⟩ := h.fail s e t ha
    exact ⟨ns, fresh, hns.trans (add_le_add_left hle _), hfresh, htouches⟩

theorem Tallies.of_eq {act : Check α} (h : Tallies cfg own vs act) (hown : own = other)
    (hvs : vs = ws) : Tallies cfg other ws act := by
  rwa [← hown, ← hvs]

/-- A step whose answer the next step depends on. -/
theorem Tallies.bind_of {x : Check α} (hx : Tallies cfg own vs x)
    (hf : ∀ a, (∃ s t, x s = .ok a t) → Tallies cfg other ws (f a)) :
    Tallies cfg (own + other) (vs + ws) (x >>= f) where
  ok := by
    intro s b u h
    obtain ⟨a, t, ha, hb⟩ := bind_apply_eq_ok.mp h
    obtain ⟨ns, fresh, hns, hfresh, hadds⟩ := hx.ok s a t ha
    obtain ⟨ms, more, hms, hmore, hmoreAdds⟩ := (hf a ⟨s, t, ha⟩).ok t b u hb
    refine ⟨ns + ms, fresh + more, ?_, ?_, ?_⟩
    · calc ns + ms + cfg.kept (ns + ms) = (ns + cfg.kept ns) + (ms + cfg.kept ms) := by
            rw [Setup.kept_add, add_add_add_comm]
        _ ≤ (vs + fresh) + (ws + more) := add_le_add hns hms
        _ = vs + ws + (fresh + more) := add_add_add_comm ..
    · exact hfresh.add hmore hadds.nextNode_le hmoreAdds.nextNode_le
    · have hboth := hadds.trans hmoreAdds
      rwa [add_add_add_comm, ← Setup.account_add] at hboth
  fail := by
    intro s e u h
    rcases bind_apply_eq_error.mp h with h | ⟨a, t, ha, hb⟩
    · obtain ⟨ns, fresh, hns, hrest⟩ := hx.fail s e u h
      refine ⟨ns, fresh, hns.trans (add_le_add_left ?_ _), hrest⟩
      exact Multiset.le_add_right _ _
    · obtain ⟨ns, fresh, hns, hfresh, hadds⟩ := hx.ok s a t ha
      obtain ⟨ms, more, hms, hmore, hle, htouches⟩ := (hf a ⟨s, t, ha⟩).fail t e u hb
      refine ⟨ns + ms, fresh + more, ?_, hfresh.add hmore hadds.nextNode_le hle,
        Nat.le_trans hadds.nextNode_le hle, hadds.touched.trans htouches⟩
      calc ns + ms ≤ (vs + fresh) + (ws + more) :=
            add_le_add ((Multiset.le_add_right _ _).trans hns) hms
        _ = vs + ws + (fresh + more) := add_add_add_comm ..

theorem Tallies.bind {x : Check α} (hx : Tallies cfg own vs x)
    (hf : ∀ a, Tallies cfg other ws (f a)) : Tallies cfg (own + other) (vs + ws) (x >>= f) :=
  hx.bind_of fun a _ => hf a

/-- After a step on names and messages. -/
theorem Steady.tallies_bind {x : Check α} (hx : Steady x)
    (hf : ∀ a, (∃ s t, x s = .ok a t) → Tallies cfg own vs (f a)) :
    Tallies cfg own vs (x >>= f) := by
  have hfirst : Tallies cfg 0 0 x := hx.tallies
  have hboth := hfirst.bind_of hf
  rwa [zero_add, zero_add] at hboth

theorem Tallies.bind_steady {x : Check α} (hx : Tallies cfg own vs x)
    (hf : ∀ a, Steady (f a)) : Tallies cfg own vs (x >>= f) := by
  have hboth := hx.bind fun a => (hf a).tallies
  rwa [add_zero, add_zero] at hboth

theorem tallies_throw (e : Fault) : Tallies cfg own vs (throw e : Check α) := by
  refine ⟨fun s a t h => (nomatch h), fun s e' t h => ?_⟩
  cases h
  exact spends_of_eq rfl rfl

theorem tallies_lift_bind {x : Except Fault α} (hf : ∀ a, x = .ok a → Tallies cfg own vs (f a)) :
    Tallies cfg own vs (lift x >>= f) := by
  cases x with
  | ok a => exact hf a rfl
  | error e => exact tallies_throw e

theorem tallies_pure (a : α) : Tallies cfg 0 0 (pure a : Check α) :=
  Steady.tallies (ends_pure a)

theorem tallies_inScope (kind : ScopeKind) (h : Tallies cfg own vs act) :
    Tallies cfg (({kind}, 0) + own) vs (inScope kind act) where
  ok := by
    intro s a t ht
    obtain ⟨u, hact, hpop⟩ := inScope_eq_ok ht
    obtain ⟨id, rest, hstack, rfl⟩ := popScope_eq_ok hpop
    obtain ⟨ns, fresh, hns, hfresh, hadds⟩ := h.ok _ _ _ hact
    refine ⟨ns, fresh, hns, ⟨hfresh.nodup, hfresh.bounds⟩, ?_⟩
    rw [add_assoc]
    exact State.Adds.inScope hadds hstack
  fail := by
    intro s e t ht
    rcases inScope_eq_error ht with hact | ⟨hact, -⟩
    · obtain ⟨ns, fresh, hns, hfresh, hrest⟩ := h.fail _ _ _ hact
      exact ⟨ns, fresh, hns, ⟨hfresh.nodup, hfresh.bounds⟩, hrest⟩
    · obtain ⟨ns, fresh, hns, hfresh, hadds⟩ := h.ok _ _ _ hact
      exact ⟨ns, fresh, (Multiset.le_add_right _ _).trans hns, ⟨hfresh.nodup, hfresh.bounds⟩,
        hadds.nextNode_le, hadds.touched⟩

theorem tallies_underGuard (names : Datum) (h : Tallies cfg own vs act) :
    Tallies cfg own vs (underGuard names act) := by
  have hguards (f : List Datum → List Datum) :
      Tallies cfg 0 0 (modify fun s => { s with guards := f s.guards } : Check PUnit) := by
    refine tallies_of_adds (fun s a t ht => ?_) fun s e t ht => nomatch ht
    cases ht
    exact .of_eq rfl rfl rfl rfl rfl rfl rfl
  have hall := (hguards (names :: ·)).bind fun _ => h.bind fun _ => hguards tail
  exact hall.of_eq (by simp) (by simp)

theorem tallies_defer {task : Task} {duty : Duty} (hduty : task.duty? = some duty) :
    Tallies cfg (0, {duty}) 0 (defer .functions task) := by
  refine tallies_of_adds (fun s a t ht => ?_) fun s e t ht => defer_eq_error ht
  obtain ⟨entries, hentries, rfl⟩ := defer_eq_ok ht
  exact State.adds_withTask hentries hduty

theorem Routine.tallies {ks : List ScopeKind} {ps : List Leg} {ds : List Duty} {x : Visit → Check α}
    {xs : Script α} (h : Routine cfg n ks ps ds x xs) {visit : Visit}
    (hv : ∀ v ∈ ps.map (·.2), Tallies cfg 0 v.nodes (visit v n)) :
    Tallies cfg (ks, ds) (Value.nodesOf (ps.map (·.2))) (x visit) := by
  have hsteady (a : Act) (s : State) (_ : a.IsOf n ∧ a.UsesTop s) : EndsAt .fixed (a.run cfg) s :=
    a.run_steady cfg s
  induction h with
  | pure a => exact tallies_pure a
  | throw e => exact tallies_throw e
  | bind hx _ ihx ihf =>
    rw [map_append, forall_mem_append] at hv
    have hboth := (ihx hv.1).bind_of fun a ha => (hx.exists_ops ha).elim fun ops hops =>
      ihf a ops hops hv.2
    exact hboth.of_eq (by simp) (by simp)
  | act a _ _ => exact (a.run_steady cfg).tallies
  | future b hof _ => exact Steady.tallies (ends_bindFuture hsteady hof)
  | late names _ _ _ ih =>
    exact Steady.tallies_bind (ends_reportLate hsteady names) fun _ _ => ih hv
  | visit value => exact (hv value (by simp)).of_eq rfl (by simp [Value.nodesOf])
  | scope kind _ _ ih =>
    rw [map_legsIn] at hv ⊢
    rw [map_legs] at ih
    exact (tallies_inScope kind (ih hv)).of_eq (by simp) rfl
  | guard names _ _ ih => exact tallies_underGuard _ (ih hv)
  | defers task _ _ hduty => exact tallies_defer hduty

section Visits

variable {values : List Value} {visit : Visit}
  (hv : ∀ v ∈ values, Tallies cfg 0 v.nodes (visit v n))

include hv

theorem tallies_visitAll {items : List Value} (h : items ⊆ values) :
    Tallies cfg 0 (Value.nodesOf items) (visitAll visit n items) := by
  have hall := (routine_visitAll items).tallies fun v hmem => hv v (h (by simpa using hmem))
  exact hall.of_eq rfl (by rw [map_legs])

theorem tallies_visitChildren (h : n.children.map .node ⊆ values) :
    Tallies cfg 0 (Value.nodesOf (n.children.map .node)) (visitChildren visit n) := by
  have hall := routine_visitChildren.tallies fun v hmem => hv v (h (by simpa using hmem))
  exact hall.of_eq rfl (by rw [map_legs])

end Visits

theorem nodeAccount_eq (cfg : Setup) (n : Node) : cfg.nodeAccount n = (↑n.scopes, ↑(n.duties cfg)) := by
  rw [Setup.nodeAccount, NodeOf.scopes, NodeOf.duties]
  cases Rule.of? n.kind with
  | none => rfl
  | some rule =>
    cases rule with
    | functionDef | classDef =>
      simp only [Setup.ruleAccount, Rule.scopes, Rule.duties, Setup.doctestsOf]
      cases cfg.doctests <;> rfl
    | _ => rfl

variable {handle : Node → Check Unit}

theorem tallies_handleNode {below : Visit}
    (hb : ∀ v ∈ n.handed cfg.dialect, Tallies cfg 0 v.nodes (below v n)) :
    Tallies cfg (cfg.nodeAccount n) (Value.nodesOf (n.handed cfg.dialect))
      (handleNode cfg below n) := by
  have htaken := n.taken_subperm cfg.dialect
  rw [nodeAccount_eq]
  exact ((routine_handleNode cfg n).tallies fun v hv => hb v (htaken.subset hv)).mono
    (Value.nodesOf_mono htaken)

private theorem tallies_thenRise (h : Tallies cfg own vs act) :
    Tallies cfg own vs (thenRise act) where
  ok := by
    intro s a t ht
    obtain ⟨r, hact, rfl⟩ := thenRise_eq_ok ht
    obtain ⟨ns, fresh, hns, hfresh, hadds⟩ := h.ok _ _ _ hact
    exact ⟨ns, fresh, hns, ⟨hfresh.nodup, hfresh.bounds⟩, { hadds with }⟩
  fail := by
    intro s e t ht
    unfold thenRise at ht
    split at ht
    · cases ht
    · rename_i e' r hact
      cases ht
      obtain ⟨ns, fresh, hns, hfresh, hrest⟩ := h.fail _ _ _ hact
      exact ⟨ns, fresh, hns, ⟨hfresh.nodup, hfresh.bounds⟩, hrest⟩

theorem touches_of_shifts (h : s.Shifts m t.moved) : s.Touches t {m} := by
  rw [State.Touches, State.movedIds]
  generalize t.moved = moved at h
  cases h with
  | stays => exact Multiset.le_add_right _ _
  | moves => simp [State.movedIds, add_comm]

/-- The visit of a node enters it with what its rule enters, which is from other parts of it. -/
private theorem tallies_visitNode (hn : n.Distinct) (hm : m ∈ n.nodes) (hself : m.Distinct)
    (hh : Tallies cfg (cfg.nodeAccount m) (Value.nodesOf (m.handed cfg.dialect)) (handle m)) :
    Tallies cfg 0 m.nodes (visitOne cfg handle (.node m) n) := by
  have hrest := (tallies_thenRise hh).bind_steady fun _ =>
    Quiet.steady ((told_traceLine ("end " ++ m.kind)).ends cfg)
  have hparts := cfg.kept_add_handed_le m
  have hnodes : {m} + (m.below : Multiset Node) = m.nodes := by
    rw [m.nodes_eq, Multiset.singleton_add, Multiset.cons_coe]
  constructor
  · intro s a t ht
    obtain ⟨_, t₁, henter, ht⟩ := bind_apply_eq_ok.mp ht
    have hshifts := enterNode_shifts henter
    obtain ⟨r, hstill, rfl⟩ := enterNode_eq_ok henter
    obtain ⟨ns, fresh, hns, hfresh, hadds⟩ := hrest.ok _ _ _ ht
    have htouches : s.Touches r {m} := touches_of_shifts hshifts
    have hentered := State.adds_moved_entered hn hm hself hstill.toAlike htouches
    have hnext : (r.entered m n).nextNode = s.nextNode := hstill.nextNode_eq
    refine ⟨{m} + ns, fresh, ?_, ⟨hfresh.nodup, ?_⟩, ?_⟩
    · calc {m} + ns + cfg.kept ({m} + ns)
          = {m} + cfg.kept {m} + (ns + cfg.kept ns) := by
            rw [Setup.kept_add, add_add_add_comm]
        _ ≤ {m} + cfg.kept {m} + (Value.nodesOf (m.handed cfg.dialect) + fresh) :=
            add_le_add_right hns _
        _ = {m} + (cfg.kept {m} + Value.nodesOf (m.handed cfg.dialect)) + fresh := by
            rw [add_assoc, add_assoc, add_assoc]
        _ ≤ {m} + (m.below : Multiset Node) + fresh :=
            add_le_add_left (add_le_add_right hparts _) _
        _ = m.nodes + fresh := by rw [hnodes]
    · rw [← hnext]
      exact hfresh.bounds
    · have hall := hentered.trans hadds
      rw [zero_add] at hall
      rwa [zero_add, Setup.account_add, Setup.account_singleton]
  · intro s e t ht
    rcases bind_apply_eq_error.mp ht with henter | ⟨_, t₁, henter, ht⟩
    · have hstill := enterNode_eq_error henter
      refine ⟨{m}, 0, ?_, .zero _ _, Nat.le_of_eq hstill.nextNode_eq.symm, ?_⟩
      · rw [← hnodes, add_zero]
        exact Multiset.le_add_right _ _
      · rcases enterNode_touches henter with hmoved | ⟨p, hmoved⟩
        · exact State.touches_of_eq hmoved _
        · simp [State.Touches, State.movedIds, hmoved, add_comm]
    · have hshifts := enterNode_shifts henter
      obtain ⟨r, hstill, rfl⟩ := enterNode_eq_ok henter
      obtain ⟨ns, fresh, hns, hfresh, hle, htouches⟩ := hrest.fail _ _ _ ht
      have hnext : (r.entered m n).nextNode = s.nextNode := hstill.nextNode_eq
      have hfirst : s.Touches (r.entered m n) {m} := touches_of_shifts hshifts
      refine ⟨{m} + ns, fresh, ?_, ⟨hfresh.nodup, ?_⟩, hnext ▸ hle, hfirst.trans htouches⟩
      · calc {m} + ns ≤ {m} + (Value.nodesOf (m.handed cfg.dialect) + fresh) :=
              add_le_add_right hns _
          _ ≤ {m} + (m.below + fresh) :=
              add_le_add_right (add_le_add_left ((Multiset.le_add_left _ _).trans hparts) _) _
          _ = m.nodes + fresh := by rw [← add_assoc, hnodes]
      · rw [← hnext]
        exact hfresh.bounds

private theorem tallies_refuse (v : Value) : Tallies cfg 0 0 (refuse cfg v) := by
  refine ⟨fun s a t ht => absurd ht (refuse_ne_ok cfg _ s t), fun s e t ht => ?_⟩
  have hmoved := refuse_moved ht
  obtain ⟨u, hstill, rfl | rfl⟩ := refuse_eq_error ht
  · exact spends_of_eq hstill.nextNode_eq hmoved
  · exact spends_of_eq hstill.nextNode_eq hmoved

theorem tallies_visitOne (hn : n.Distinct) (hv : v.nodes <+~ n.below) (hh : ∀ m, m.Distinct →
      Tallies cfg (cfg.nodeAccount m) (Value.nodesOf (m.handed cfg.dialect)) (handle m)) :
    Tallies cfg 0 v.nodes (visitOne cfg handle v n) := by
  cases v with
  | null => exact tallies_pure ()
  | node m =>
    have hfirst : m ∈ m.nodes := by
      rw [m.nodes_eq]
      exact mem_cons_self
    have hmem : m ∈ n.nodes := by
      rw [n.nodes_eq]
      exact mem_cons_of_mem _ (hv.subset hfirst)
    have hself : m.Distinct := hn.nodup_of_subperm hv
    exact tallies_visitNode hn hmem hself (hh m hself)
  | _ => exact (tallies_refuse _).mono (Multiset.zero_le _)

theorem tallies_visitWithin (fuel : Nat) (hn : n.Distinct) (hv : v.nodes <+~ n.below) :
    Tallies cfg 0 v.nodes (visitWithin cfg fuel v n) := by
  induction fuel generalizing n v with
  | zero =>
    rw [visitWithin]
    dsimp only
    split
    · exact (tallies_pure ()).mono (Multiset.zero_le _)
    · exact tallies_throw _
  | succ fuel ih =>
    refine tallies_visitOne hn hv fun m hm => tallies_handleNode fun w hw => ih hm ?_
    have hpart : w ∈ m.parts cfg.dialect := mem_append_left _ hw
    exact Value.nodes_subperm_of_mem hpart (m.flatMap_parts_subperm cfg.dialect)

/-- A visit below a node without shared nodes enters nodes of the value, each once. -/
theorem tallies_visit (hn : n.Distinct) (hv : v.nodes <+~ n.below) :
    Tallies cfg 0 v.nodes (visit cfg v n) :=
  tallies_visitWithin v.size hn hv

end Check

end ScopeLint
