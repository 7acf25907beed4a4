import Mathlib.Tactic.Abel
import ScopeLint.Proofs.Checker.Chart
import ScopeLint.Proofs.Checker.Rounds

/-! # Every scope is closed once and every body is gone through once

The queue of bodies and doctests is gone through from its first entry to its last, also while it
grows. At each point the nodes that have been dispatched and those that are kept for the rest of the
queue are all different, and the scopes are those that the dispatched nodes and the finished entries
account for. When nothing is left, that says how many scopes of each kind there are. -/
namespace ScopeLint

open List

open scoped List

variable {cfg : Setup} {v : Value} {s t : State} {n : Node} {vs : Multiset Node} {done : Nat}
  {d : Deferred}

namespace Value

def docText (v : Value) : Option String :=
  let inner := if v.isKind "Expr" then (v.get "value").toOption.getD .null else v
  if inner.isLiteral then inner.literal.toOption.bind text? else none

theorem isKind_expr_of_isLiteral (h : v.isLiteral = true) :
    v.isKind "Expr" = false := by
  cases v with
  | node n =>
    simp only [Value.isLiteral, Bool.or_eq_true, Bool.and_eq_true, beq_iff_eq] at h
    simp only [Value.isKind]
    rcases h with h | ⟨h, -⟩
    · simp [h]
    · simp [h]
  | _ => rfl

end Value

namespace NodeOf

def docText (n : Node) : Option String :=
  (((n.itemsOf "body").toOption.bind List.head?).bind Value.docText).filter (· != "")

/-- Whether the docstring of a definition is checked for its examples. -/
def hasExamples (n : Node) : Bool := n.docText.any fun text => (Doctest.examples? text).isSome

end NodeOf

namespace State

variable {found : Option (Value × Datum)}

theorem docstring_eq_ok_of_literal (hv : v.isLiteral = true) (h : s.docstring v = .ok found) :
    (found.map (·.1)).bind Value.text? = v.literal.toOption.bind Value.text? := by
  unfold docstring at h
  simp only [Value.isKind_expr_of_isLiteral hv, hv, Bool.not_true, Bool.false_eq_true, if_false,
    pure_bind] at h
  split at h
  · split at h
    · obtain ⟨content, hcontent, h⟩ := bind_eq_ok.mp h
      rw [hcontent]
      split at h
      · obtain ⟨line, -, h⟩ := bind_eq_ok.mp h
        cases h
        rfl
      · obtain ⟨line, -, h⟩ := bind_eq_ok.mp h
        cases h
        rfl
      · cases h
    · cases h
  · rename_i hnode
    cases v with
    | node n => exact absurd rfl (hnode n)
    | _ => cases hv

/-- What a docstring says depends on the tree alone; only its place depends on the state. -/
theorem docstring_eq_ok (h : s.docstring v = .ok found) :
    (found.map (·.1)).bind Value.text? = v.docText := by
  cases hexpr : v.isKind "Expr" with
  | false =>
    simp only [Value.docText, hexpr]
    cases hv : v.isLiteral with
    | true => simpa [hv] using docstring_eq_ok_of_literal hv h
    | false =>
      simp only [docstring, hexpr, hv, pure_bind] at h
      cases h
      simp [hv]
  | true =>
    simp only [docstring, hexpr, if_true] at h
    obtain ⟨inner, hinner, h⟩ := bind_eq_ok.mp h
    have hvalue : (v.get "value").toOption = some inner := by
      rw [hinner]
      rfl
    simp only [Value.docText, hexpr, hvalue, if_true, Option.getD_some]
    cases hv : inner.isLiteral with
    | true =>
      have hdoc : s.docstring inner = .ok found := by
        simp only [docstring, Value.isKind_expr_of_isLiteral hv, Bool.false_eq_true, if_false,
          pure_bind]
        exact h
      simpa [hv] using docstring_eq_ok_of_literal hv hdoc
    | false =>
      rw [hv] at h
      cases h
      simp

theorem docstringOf_eq_ok {found : Option (String × Datum)} (h : s.docstringOf n = .ok found) :
    found.map (·.1) = n.docText := by
  obtain ⟨items, hitems, h⟩ := bind_eq_ok.mp h
  have hbody : (n.itemsOf "body").toOption = some items := by
    rw [hitems]
    rfl
  rw [NodeOf.docText, hbody]
  split at h
  · rename_i hhead
    cases h
    simp [hhead]
  · rename_i first hhead
    obtain ⟨doc, hdoc, h⟩ := bind_eq_ok.mp h
    have htext := docstring_eq_ok hdoc
    rw [Option.bind_some, hhead, Option.bind_some, ← htext]
    split at h
    · rename_i text line
      by_cases hempty : text = ""
      · rw [if_pos hempty] at h
        cases h
        simp [Value.text?, hempty, Option.filter]
      · rw [if_neg hempty] at h
        cases h
        simp [Value.text?, hempty, Option.filter]
    · rename_i content line hnot
      split at h
      · cases h
      · cases h
        cases content with
        | text text => exact (hnot text rfl).elim
        | _ => rfl
    · cases h
      rfl

end State

/-- The scopes that are opened for a duty itself. -/
def Duty.scopes : Duty → Multiset ScopeKind
  | .body _ => {.function}
  | .doctests n => if n.hasExamples then {.function} else 0

def Duty.body? : Duty → Option Node
  | .body n => some n
  | .doctests _ => none

namespace Duty

@[simp]
theorem filterMap_body?_cons (n : Node) (ds : Multiset Duty) :
    (Duty.body n ::ₘ ds).filterMap body? = n ::ₘ ds.filterMap body? :=
  Multiset.filterMap_cons_some _ _ _ rfl

@[simp]
theorem filterMap_body?_singleton (n : Node) :
    ({.body n} : Multiset Duty).filterMap body? = {n} := rfl

end Duty

def Event.bodyNode? : Event → Option Node
  | .body n _ => some n
  | _ => none

def State.finishedBodies (s : State) : List Node := s.history.filterMap Event.bodyNode?

theorem State.finishedBodies_of_history {es : List Event} (hes : t.history = es ++ s.history)
    (hnone : ∀ e ∈ es, e.bodyOf? = none) :
    t.finishedBodies = s.finishedBodies := by
  have hnobody : es.filterMap Event.bodyNode? = [] := by
    refine filterMap_eq_nil_iff.mpr fun e he => ?_
    have hbody := hnone e he
    cases e with
    | body => cases hbody
    | _ => rfl
  rw [finishedBodies, hes, filterMap_append, hnobody, nil_append, finishedBodies]

def dutiesOf (ds : List Deferred) : Multiset Duty := (ds.filterMap (·.task.duty?) : List Duty)

theorem dutiesOf_append (ds es : List Deferred) :
    dutiesOf (ds ++ es) = dutiesOf ds + dutiesOf es := by
  simp [dutiesOf]

/-- The books are balanced where the first `done` entries of the queue have been gone through and
`vs` are nodes still to be visited. -/
structure State.Balanced (cfg : Setup) (vs : Multiset Node) (done : Nat) (s : State) : Prop where
  done_le : done ≤ s.queued.length
  resolved : s.Resolved
  distinct : ∀ m ∈ s.dispatched, m.Distinct
  closed : s.ClosedBut [0]
  duties : dutiesOf s.queued = (cfg.account s.dispatched).2
  kinds : (s.kinds : Multiset ScopeKind) = {.module} + (cfg.account s.dispatched).1 +
    (dutiesOf (s.queued.take done)).bind Duty.scopes
  bodies : (s.finishedBodies : Multiset Node) =
    (dutiesOf (s.queued.take done)).filterMap Duty.body?
  moved : (s.movedIds : Multiset Nat) ≤ (s.dispatched : Multiset Node).map (·.id)
  nodup : ((s.dispatched + (dutiesOf (s.queued.drop done)).bind Duty.nodes + vs).map (·.id)).Nodup
  bounded : ∀ m ∈ s.dispatched + (dutiesOf (s.queued.drop done)).bind Duty.nodes + vs,
    m.id < s.nextNode

namespace State

variable {ns fresh : Multiset Node} {now later : List Deferred}

theorem Fresh.nodup_add (h : s.Fresh t fresh) (hnodup : (vs.map (·.id)).Nodup)
    (hbounded : ∀ m ∈ vs, m.id < s.nextNode) : ((vs + fresh).map (·.id)).Nodup := by
  rw [Multiset.map_add, Multiset.nodup_add]
  refine ⟨hnodup, h.nodup, Multiset.disjoint_left.mpr ?_⟩
  intro id hold hnew
  obtain ⟨m, hm, rfl⟩ := Multiset.mem_map.mp hold
  obtain ⟨m', hm', hid⟩ := Multiset.mem_map.mp hnew
  have hlt := hbounded m hm
  have hge := (h.bounds m' hm').1
  omega

/-- A queue that grows while its entries `now` are gone through. -/
private theorem grown_queue {queue : List Deferred} (hdone : done ≤ queue.length)
    (hqueue : queue.drop done = now ++ later) (more : List Deferred) :
    done + now.length ≤ (queue ++ more).length ∧
      (queue ++ more).take (done + now.length) = queue.take done ++ now ∧
      (queue ++ more).drop (done + now.length) = later ++ more := by
  have hlength : done + now.length ≤ queue.length := by
    have hdrop := congrArg length hqueue
    rw [length_drop, length_append] at hdrop
    omega
  refine ⟨?_, ?_, ?_⟩
  · rw [length_append]
    omega
  · rw [take_append_of_le_length hlength, take_add, hqueue, take_left]
  · rw [drop_append_of_le_length hlength, ← drop_drop, hqueue, drop_left]

/-- The nodes that are kept for later are from what has been at hand. -/
private theorem kept_for_later_le {finished later visited : Multiset Node}
    (hns : ns + cfg.kept ns ≤ vs + finished + fresh) :
    visited + ns + (later + cfg.kept ns) + 0 ≤ visited + (finished + later) + vs + fresh := by
  calc visited + ns + (later + cfg.kept ns) + 0
      = visited + later + (ns + cfg.kept ns) := by abel
    _ ≤ visited + later + (vs + finished + fresh) := add_le_add_right hns _
    _ = visited + (finished + later) + vs + fresh := by abel

variable (h : s.Balanced cfg vs done)

include h

theorem Balanced.at_end (hnone : s.queued.drop done = []) : s.Balanced cfg vs s.queued.length := by
  rwa [← Nat.le_antisymm h.done_le (drop_eq_nil_iff.mp hnone)]

/-- The next entries of the queue are gone through, and all of `vs` is visited. -/
theorem Balanced.enter (hqueue : s.queued.drop done = now ++ later)
    (hns : ns + cfg.kept ns ≤ vs + (dutiesOf now).bind Duty.nodes + fresh)
    (hfresh : s.Fresh t fresh)
    (hadds : s.Adds t ns (((dutiesOf now).bind Duty.scopes, 0) + cfg.account ns))
    (hbodies : (t.finishedBodies : Multiset Node) =
      s.finishedBodies + (dutiesOf now).filterMap Duty.body?) :
    t.Balanced cfg 0 (done + now.length) := by
  obtain ⟨more, hmore⟩ := hadds.queued
  obtain ⟨hlength, htake, hdrop⟩ := grown_queue h.done_le hqueue more
  rw [hmore] at hlength htake hdrop
  have hkinds : (t.kinds : Multiset ScopeKind) =
      s.kinds + ((dutiesOf now).bind Duty.scopes + (cfg.account ns).1) :=
    congrArg Prod.fst hadds.account
  have hduties : dutiesOf t.queued = dutiesOf s.queued + (0 + (cfg.account ns).2) :=
    congrArg Prod.snd hadds.account
  have hnew : dutiesOf more = (cfg.account ns).2 := by
    rw [← hmore, dutiesOf_append, zero_add] at hduties
    exact add_left_cancel hduties
  have hle : (t.dispatched : Multiset Node) +
      (dutiesOf (t.queued.drop (done + now.length))).bind Duty.nodes + 0 ≤
        s.dispatched + (dutiesOf (s.queued.drop done)).bind Duty.nodes + vs + fresh := by
    rw [hadds.dispatched, hdrop, hqueue, dutiesOf_append, dutiesOf_append, hnew, Multiset.add_bind,
      Multiset.add_bind]
    exact kept_for_later_le hns
  constructor
  · exact hlength
  · exact hadds.resolved h.resolved
  · intro m hm
    rw [← Multiset.mem_coe, hadds.dispatched] at hm
    rcases Multiset.mem_add.mp hm with hm | hm
    · exact h.distinct m (Multiset.mem_coe.mp hm)
    · exact hadds.distinct m hm
  · exact hadds.closed [0] h.closed
  · rw [hduties, h.duties, hadds.dispatched, Setup.account_add, Prod.snd_add, zero_add]
  · rw [hkinds, h.kinds, htake, hadds.dispatched, Setup.account_add, Prod.fst_add, dutiesOf_append,
      Multiset.add_bind]
    abel
  · rw [hbodies, h.bodies, htake, dutiesOf_append, Multiset.filterMap_add]
  · rw [hadds.dispatched, Multiset.map_add]
    exact le_trans hadds.touched (add_le_add_left h.moved _)
  · exact Multiset.nodup_of_le (Multiset.map_le_map hle) (hfresh.nodup_add h.nodup h.bounded)
  · intro m hm
    rcases Multiset.mem_add.mp (Multiset.mem_of_le hle hm) with hold | hnew
    · exact Nat.lt_of_lt_of_le (h.bounded m hold) hadds.nextNode_le
    · exact (hfresh.bounds m hnew).2

/-- No node has been moved twice. -/
theorem Balanced.nodup_movedIds : s.movedIds.Nodup := by
  have hdispatched : ((s.dispatched : Multiset Node).map (·.id)).Nodup := by
    refine Multiset.nodup_of_le (Multiset.map_le_map ?_) h.nodup
    rw [add_assoc]
    exact Multiset.le_add_right _ _
  exact Multiset.coe_nodup.mp (Multiset.nodup_of_le h.moved hdispatched)

theorem Balanced.nodup_of_spends {ws : Multiset Node}
    (hws : ws ≤ (dutiesOf (s.queued.drop done)).bind Duty.nodes + vs)
    (hspends : Check.Spends ws s t) : t.movedIds.Nodup := by
  obtain ⟨ns, fresh, hns, hfresh, -, htouches⟩ := hspends
  have hall := hfresh.nodup_add h.nodup h.bounded
  have hle : (t.movedIds : Multiset Nat) ≤
      (s.dispatched + (dutiesOf (s.queued.drop done)).bind Duty.nodes + vs + fresh).map (·.id) :=
    calc (t.movedIds : Multiset Nat)
        ≤ s.movedIds + ns.map (·.id) := htouches
      _ ≤ (s.dispatched : Multiset Node).map (·.id) + (ws + fresh).map (·.id) :=
          add_le_add h.moved (Multiset.map_le_map hns)
      _ = (s.dispatched + ws + fresh).map (·.id) := by rw [← Multiset.map_add, add_assoc]
      _ ≤ (s.dispatched + ((dutiesOf (s.queued.drop done)).bind Duty.nodes + vs) + fresh).map
            (·.id) := Multiset.map_le_map (add_le_add_left (add_le_add_right hws _) _)
      _ = _ := by rw [← add_assoc]
  exact Multiset.coe_nodup.mp (Multiset.nodup_of_le hle hall)

end State

namespace Check

section Tasks

theorem tallies_visitBody (hn : n.Distinct) :
    Tallies cfg 0 (Value.nodesOf n.deferred) (visitBody (visit cfg) n) := by
  have hbelow : n.deferred.flatMap Value.nodes <+~ n.below := by
    have htaken := Pick.flatMap_taken_subperm n [.value "body"] (by simp)
    rwa [flatMap_singleton, ← n.flatMap_deferred] at htaken
  have hv : ∀ v ∈ n.deferred, Tallies cfg 0 v.nodes (visit cfg v n) := fun v hmem =>
    tallies_visit hn (Value.nodes_subperm_of_mem hmem hbelow)
  refine tallies_lift_bind fun body hbody => ?_
  unfold NodeOf.deferred at hv ⊢
  rw [hbody] at hv ⊢
  cases body with
  | list items => exact tallies_visitAll hv fun _ h => h
  | _ => simpa [Value.nodesOf] using hv _ (mem_singleton.mpr rfl)

theorem tallies_finishBody (n : Node) : Tallies cfg 0 0 (finishBody cfg n) := by
  refine tallies_of_adds (fun s a t ht => ?_) fun s e t ht => finishBody_eq_error ht
  obtain ⟨top, rest, entries, -, -, rfl⟩ := finishBody_eq_ok ht
  exact .of_eq rfl rfl rfl rfl rfl rfl rfl

theorem tallies_runBody (hn : n.Distinct) (names : List Datum) :
    Tallies cfg ({.function}, 0) (Value.nodesOf n.deferred) (runBody cfg (visit cfg) n names) := by
  have hvisit : Tallies cfg 0 (Value.nodesOf n.deferred) (do
      visitBody (visit cfg) n
      finishBody cfg n) :=
    ((tallies_visitBody hn).bind fun _ => tallies_finishBody n).of_eq (add_zero _) (add_zero _)
  have hinside := (steady_bindParameters cfg n names).tallies_bind fun _ _ => hvisit
  exact (tallies_inScope .function hinside).of_eq (add_zero _) rfl

theorem tallies_visitExample (base : Shift) (docLine : Datum) (e : Example) (tree : Node) :
    Tallies cfg 0 0 (visitExample (visit cfg) base docLine e tree) := by
  have hbelow (numbered : Node) :
      Value.nodesOf (numbered.children.map .node) ≤ numbered.nodes :=
    Multiset.coe_le.mpr (numbered.flatMap_children_subperm.trans numbered.below_subperm_nodes)
  have hchildren (numbered : Node) (hdistinct : numbered.Distinct) :
      Tallies cfg 0 (Value.nodesOf (numbered.children.map .node))
        (visitChildren (visit cfg) numbered) :=
    tallies_visitChildren (fun v hv => tallies_visit hdistinct
      (Value.nodes_subperm_of_mem hv numbered.flatMap_children_subperm)) fun _ hv => hv
  have hnew (s : State) (shift : Shift) : s.Fresh (s.forExample tree shift)
      ((tree.numbered s.nextNode).1.nodes : Multiset Node) :=
    ⟨(NodeOf.numberedFrom s.nextNode tree).nodup, fun m hm =>
      (NodeOf.numberedFrom s.nextNode tree).bounds (Multiset.mem_coe.mp hm)⟩
  constructor
  · intro s a t ht
    obtain ⟨shift, u, -, hvisit, rfl⟩ := visitExample_eq_ok ht
    have hnumbers := NodeOf.numberedFrom s.nextNode tree
    obtain ⟨ns, fresh, hns, hfresh, hadds⟩ := (hchildren _ hnumbers.nodup).ok _ _ _ hvisit
    refine ⟨ns, (tree.numbered s.nextNode).1.nodes + fresh, ?_, ?_, ?_⟩
    · rw [zero_add]
      exact hns.trans (add_le_add_left (hbelow _) _)
    · exact (hnew s shift).add ⟨hfresh.nodup, hfresh.bounds⟩ hnumbers.1 hadds.nextNode_le
    · exact { hadds with nextNode_le := Nat.le_trans hnumbers.1 hadds.nextNode_le }
  · intro s e t ht
    obtain rfl | ⟨shift, -, hvisit⟩ := visitExample_eq_error ht
    · exact spends_of_eq rfl rfl
    · have hnumbers := NodeOf.numberedFrom s.nextNode tree
      obtain ⟨ns, fresh, hns, hfresh, hle, htouches⟩ :=
        (hchildren _ hnumbers.nodup).fail _ _ _ hvisit
      refine ⟨ns, (tree.numbered s.nextNode).1.nodes + fresh, ?_, ?_, ?_, htouches⟩
      · rw [zero_add]
        exact hns.trans (add_le_add_left (hbelow _) _)
      · exact (hnew s shift).add ⟨hfresh.nodup, hfresh.bounds⟩ hnumbers.1 hle
      · exact Nat.le_trans hnumbers.1 hle

theorem tallies_runExample (n : Node) (base : Shift) (docLine : Datum) (e : Example) :
    Tallies cfg 0 0 (runExample cfg (visit cfg) n base docLine e) := by
  unfold runExample
  split
  · exact tallies_visitExample base docLine e _
  · refine tallies_lift_bind fun position _ => ?_
    have hdatum : Steady (datum (.node n)) := (reads_datum _).ends
    refine hdatum.tallies_bind fun d _ => Steady.tallies ?_
    exact (speaks_reportWith cfg (mem_singleton.mpr rfl) _ _).steady
  · exact tallies_throw _

private theorem tallies_examples (n : Node) (base : Shift) (docLine : Datum)
    (examples : List Example) :
    Tallies cfg 0 0 (examples.forM (runExample cfg (visit cfg) n base docLine)) := by
  induction examples with
  | nil => exact tallies_pure _
  | cons e rest ih =>
    exact ((tallies_runExample n base docLine e).bind fun _ => ih).of_eq (add_zero _) (add_zero _)

/-- A step that in each state does what some such step does. -/
private theorem tallies_of_each {own : Account} {act : Check Unit}
    (h : ∀ s, ∃ other, act s = other s ∧ Tallies cfg own vs other) : Tallies cfg own vs act where
  ok := by
    intro s a t ht
    obtain ⟨other, heq, hother⟩ := h s
    exact hother.ok s a t (heq ▸ ht)
  fail := by
    intro s e t ht
    obtain ⟨other, heq, hother⟩ := h s
    exact hother.fail s e t (heq ▸ ht)

theorem tallies_runDoctests (n : Node) :
    Tallies cfg ((Duty.doctests n).scopes, 0) 0 (runDoctests cfg (visit cfg) n) := by
  refine tallies_of_each fun s => ?_
  obtain ⟨e, heq⟩ | ⟨found, hfound, hnone, heq⟩ | ⟨text, line, examples, hfound, hexamples, heq⟩ :=
    runDoctests_cases cfg (visit cfg) n s
  · exact ⟨throw e, heq, tallies_throw e⟩
  · have hno : n.hasExamples = false := by
      rw [NodeOf.hasExamples, ← State.docstringOf_eq_ok hfound]
      cases found with
      | none => rfl
      | some doc => simpa using hnone
    refine ⟨pure (), heq, ?_⟩
    rw [Duty.scopes, hno]
    exact tallies_pure ()
  · have hsome : n.hasExamples = true := by
      simp [NodeOf.hasExamples, ← State.docstringOf_eq_ok hfound, hexamples]
    have hruns : Tallies cfg 0 0
        (examples.forM (runExample cfg (visit cfg) n (s.shift.getD (.of 0 0)) line)) :=
      tallies_examples n _ line examples
    refine ⟨_, heq, (tallies_inScope .function hruns).of_eq ?_ rfl⟩
    rw [Duty.scopes, if_pos hsome, add_zero]

section Bodies

variable {q : Queue} {i : Nat}

private theorem finishedBodies_runBody {names : List Datum}
    (h : runBody cfg (visit cfg) n names (s.resumed q i d) = .ok () t) :
    t.finishedBodies = n :: s.finishedBodies := by
  obtain ⟨r, u, v, hparameters, hvisit, hfinish, hpop⟩ := runBody_eq_ok h
  have hfollows : Follows cfg n n.deferred (visitBody (visit cfg) n) :=
    follows_visitBody (fun _ _ _ hv => follows_visit hv) n
  have hcourse : Course cfg n n.deferred r u := hfollows.ok hvisit
  obtain ⟨es, hes, hall⟩ := (moves_body hparameters hcourse).history fun _ _ _ => trivial
  have hsame := State.finishedBodies_of_history hes fun e he => (hall e he).bodyOf?_eq
  obtain ⟨top, _, entries, -, -, rfl⟩ := finishBody_eq_ok hfinish
  obtain ⟨id, rest, -, rfl⟩ := popScope_eq_ok hpop
  rw [← hsame]
  rfl

private theorem finishedBodies_runDoctests
    (h : runDoctests cfg (visit cfg) n (s.resumed q i d) = .ok () t) :
    t.finishedBodies = s.finishedBodies := by
  obtain ⟨e, heq⟩ | ⟨found, -, -, heq⟩ | ⟨text, line, examples, -, -, heq⟩ :=
    runDoctests_cases cfg (visit cfg) n (s.resumed q i d)
  · cases heq.symm.trans h
  · cases heq.symm.trans h
    rfl
  · obtain ⟨u, hact, hpop⟩ := inScope_eq_ok (heq.symm.trans h)
    obtain ⟨id, rest, -, rfl⟩ := popScope_eq_ok hpop
    have hruns : Ends (.examples cfg) (examples.forM
        (runExample cfg (visit cfg) n ((s.resumed q i d).shift.getD (.of 0 0)) line)) :=
      examples_runDoctests (fun _ _ _ hv => follows_visit hv) n _ line examples
    have hran : Examples cfg ((s.resumed q i d).opened .function) u := hruns.ok hact
    obtain ⟨es, hes, hall⟩ := (moves_examples hran).history fun _ _ _ => trivial
    exact State.finishedBodies_of_history hes fun e he => (hall e he).bodyOf?_eq

theorem finishedBodies_runTask (h : runTask cfg (visit cfg) d.task (s.resumed q i d) = .ok () t) :
    (t.finishedBodies : Multiset Node) =
      s.finishedBodies + (dutiesOf [d]).filterMap Duty.body? := by
  cases htask : d.task with
  | body n names =>
    rw [htask] at h
    have hduty : dutiesOf [d] = {.body n} := by simp [dutiesOf, htask, Task.duty?]
    rw [finishedBodies_runBody h, hduty, Duty.filterMap_body?_singleton, add_comm,
      Multiset.singleton_add, Multiset.cons_coe]
  | doctests n =>
    rw [htask] at h
    have hduty : dutiesOf [d] = {.doctests n} := by simp [dutiesOf, htask, Task.duty?]
    have hnone : ({.doctests n} : Multiset Duty).filterMap Duty.body? = 0 := rfl
    rw [finishedBodies_runDoctests h, hduty, hnone, add_zero]
  | assignments | returns =>
    have hverdict : d.task.isVerdict = true := by rw [htask]; rfl
    have hspeech : (s.resumed q i d).Says Kind.ofVerdicts t := (speaks_verdict hverdict).ok h
    obtain ⟨es, hes, hnotes⟩ := hspeech.hears.notes
    have hduty : dutiesOf [d] = 0 := by simp [dutiesOf, htask, Task.duty?]
    rw [hduty, Multiset.filterMap_zero, add_zero]
    exact congrArg _ (State.finishedBodies_of_history hes fun e he =>
      Event.bodyOf?_of_isNote (hnotes e he))

end Bodies

/-- A put-off task opens the scope that its duty is for, and visits what was kept for it. -/
theorem tallies_runTask (hd : ∀ n, .body n ∈ dutiesOf [d] → n.Distinct) :
    Tallies cfg ((dutiesOf [d]).bind Duty.scopes, 0) ((dutiesOf [d]).bind Duty.nodes)
      (runTask cfg (visit cfg) d.task) := by
  cases htask : d.task with
  | body n names =>
    have hduty : dutiesOf [d] = {.body n} := by simp [dutiesOf, htask, Task.duty?]
    rw [hduty] at hd ⊢
    have hn := hd n (Multiset.mem_singleton_self _)
    exact (tallies_runBody hn names).of_eq (by simp [Duty.scopes]) (by simp [Duty.nodes])
  | doctests n =>
    have hduty : dutiesOf [d] = {.doctests n} := by simp [dutiesOf, htask, Task.duty?]
    rw [hduty]
    exact (tallies_runDoctests n).of_eq (by simp) (by simp [Duty.nodes])
  | assignments | returns =>
    have hduty : dutiesOf [d] = 0 := by simp [dutiesOf, htask, Task.duty?]
    rw [hduty]
    exact (speaks_verdict rfl).steady.tallies

end Tasks

section Queue

variable {next : Nat}

private theorem distinct_of_next (h : s.Balanced cfg 0 done) (he : s.Entry .functions done d) :
    ∀ n, .body n ∈ dutiesOf [d] → n.Distinct := by
  intro n hn
  have hmem : .body n ∈ (cfg.account s.dispatched).2 := by
    rw [← h.duties, ← take_append_drop done s.queued, drop_queued_of_entry he, dutiesOf_append,
      ← singleton_append, dutiesOf_append]
    exact Multiset.mem_add.mpr (.inr (Multiset.mem_add.mpr (.inl hn)))
  exact h.distinct n (Multiset.mem_coe.mp (cfg.mem_of_body_mem_account hmem))

private theorem balanced_resumed (h : s.Balanced cfg vs done) (q : Queue) (i : Nat) (d : Deferred) :
    (s.resumed q i d).Balanced cfg vs done :=
  ⟨h.done_le, h.resolved, h.distinct, h.closed, h.duties, h.kinds, h.bodies, h.moved, h.nodup,
    h.bounded⟩

theorem balanced_runTask (h : s.Balanced cfg 0 done) (he : s.Entry .functions done d) :
    Lands (·.Balanced cfg 0 (done + 1)) (·.movedIds.Nodup) (runTask cfg (visit cfg) d.task)
      (s.resumed .functions done d) := by
  have htallies := @tallies_runTask cfg d (distinct_of_next h he)
  have hresumed := balanced_resumed h .functions done d
  have hnow : (s.resumed .functions done d).queued.drop done = [d] ++ s.queued.drop (done + 1) :=
    drop_queued_of_entry he
  refine lands_of (fun _ t htask => ?_) fun e t htask => ?_
  · obtain ⟨ns, fresh, hns, hfresh, hadds⟩ := htallies.ok _ _ _ htask
    refine hresumed.enter hnow ?_ hfresh hadds (finishedBodies_runTask htask)
    rwa [zero_add]
  · refine hresumed.nodup_of_spends ?_ (htallies.fail _ _ _ htask)
    rw [hnow, dutiesOf_append, Multiset.add_bind, add_zero]
    exact Multiset.le_add_right _ _

variable (hnum : cfg.Numbered next)

include hnum

theorem balanced_initial :
    (State.initial next).Balanced cfg (Value.nodesOf (cfg.root.children.map .node)) 0 := by
  have hbelow := cfg.root.flatMap_children_subperm
  constructor
  · exact Nat.zero_le _
  · rfl
  · exact nofun
  · exact List.Perm.refl _
  · rfl
  · rfl
  · rfl
  · exact Multiset.zero_le _
  · exact hnum.distinct.nodup_of_subperm hbelow
  · intro m hm
    refine hnum.bounded m ?_
    rw [cfg.root.nodes_eq]
    exact mem_cons_of_mem _ (hbelow.subset (Multiset.mem_coe.mp hm))

theorem tallies_walk : Tallies cfg 0 (Value.nodesOf (cfg.root.children.map .node))
      (visitChildren (visit cfg) cfg.root) :=
  tallies_visitChildren (fun _ hv => tallies_visit hnum.distinct
    (Value.nodes_subperm_of_mem hv cfg.root.flatMap_children_subperm)) fun _ hv => hv

theorem balanced_walk : Lands (·.Balanced cfg 0 0) (·.movedIds.Nodup)
    (visitChildren (visit cfg) cfg.root) (State.initial next) := by
  refine lands_of (fun _ s hwalk => ?_) fun e s hwalk => ?_
  · obtain ⟨ns, fresh, hns, hfresh, hadds⟩ := (tallies_walk hnum).ok _ _ _ hwalk
    obtain ⟨es, hes, hall⟩ := (course_of_walk hwalk).moves.history fun _ _ _ => trivial
    have hbodies := State.finishedBodies_of_history hes fun e he => (hall e he).bodyOf?_eq
    have hnow : (State.initial next).queued.drop 0 = [] ++ [] := rfl
    refine (balanced_initial hnum).enter hnow ?_ hfresh hadds ?_
    · rwa [show dutiesOf [] = 0 from rfl, Multiset.zero_bind, add_zero]
    · rw [hbodies]
      rfl
  · have hspends := (tallies_walk hnum).fail _ _ _ hwalk
    exact (balanced_initial hnum).nodup_of_spends (Multiset.le_add_left _ _) hspends

/-- When the queue has been gone through, nothing is left in it. However the walk and the work after
it end, no node has been moved twice. -/
theorem balanced_explore : Lands (fun s => s.Balanced cfg 0 s.queued.length) (·.movedIds.Nodup)
    (explore cfg) (State.initial next) := by
  have hends := explore_invariant (fun _ _ _ h he => balanced_runTask h he)
    (fun _ _ h => h.nodup_movedIds) (balanced_walk hnum)
  refine lands_of (fun _ s h => ?_) fun e s => hends.fail
  obtain ⟨i, hi, hnone⟩ := hends.ok h
  exact hi.at_end hnone

end Queue

end Check

end ScopeLint
