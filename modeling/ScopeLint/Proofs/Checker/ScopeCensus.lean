import ScopeLint.Proofs.Checker.Balance

/-! # How many scopes there are

At the end of a run, the closed scopes are the scopes that dispatched classes, comprehensions and
functions stand for, one for each, one for each docstring whose examples were checked, and the
module, which is closed last. -/
namespace ScopeLint

open List

open scoped List

/-- Whether the node is dispatched under one of the names. -/
def NodeOf.goesTo (n : Node) (names : List String) : Bool := names.contains (Text.upper n.kind)

namespace Rule

def namesOf (rules : List Rule) : List String :=
  (special.filter fun e => rules.contains e.2).map (·.1)

private theorem contains_keys_filter {entries : List (String × Rule)}
    (hkeys : (entries.map (·.1)).Nodup) (keep : Rule → Bool) (key : String) :
    ((entries.filter fun e => keep e.2).map (·.1)).contains key =
      (entries.lookup key).any keep := by
  induction entries with
  | nil => rfl
  | cons e rest ih =>
    obtain ⟨name, rule⟩ := e
    rw [map_cons, nodup_cons] at hkeys
    by_cases hkey : key = name
    · subst hkey
      have hrest : key ∉ (rest.filter fun e => keep e.2).map (·.1) := fun hmem =>
        hkeys.1 ((filter_sublist.map _).subset hmem)
      cases hkeep : keep rule with
      | true => simp [hkeep]
      | false => simpa [lookup_cons, hkeep] using hrest
    · rw [lookup_cons, beq_eq_false_iff_ne.mpr hkey, ← ih hkeys.2]
      cases hkeep : keep rule with
      | true => simp [hkeep, hkey]
      | false => simp [hkeep]

theorem contains_namesOf {rules : List Rule} (hdescend : .descend ∉ rules)
    (hignore : .ignore ∉ rules) (kind : String) :
    (namesOf rules).contains kind = (ofUpper? kind).any rules.contains := by
  have hkeys : (special.map (·.1)).Nodup := by decide
  have hlisted : ∀ e ∈ special,
      descending.contains e.1 = false ∧ ignoring.contains e.1 = false := by decide
  rw [namesOf, contains_keys_filter hkeys, ofUpper?]
  cases hlookup : special.lookup kind with
  | none =>
    split
    · simp [hdescend]
    · split
      · simp [hignore]
      · rfl
  | some rule =>
    obtain ⟨before, after, heq, -⟩ := lookup_eq_some_iff.mp hlookup
    have hmem : (kind, rule) ∈ special := by simp [heq]
    have hd : descending.contains kind = false := (hlisted _ hmem).1
    have hi : ignoring.contains kind = false := (hlisted _ hmem).2
    simp only [hd, hi, Bool.false_eq_true, if_false]

end Rule

theorem NodeOf.goesTo_eq {rules : List Rule} {names : List String}
    (hnames : Rule.namesOf rules = names) (hdescend : .descend ∉ rules) (hignore : .ignore ∉ rules)
    (n : Node) : n.goesTo names = (Rule.of? n.kind).any rules.contains := by
  rw [← hnames]
  exact Rule.contains_namesOf hdescend hignore _

namespace Setup

variable (cfg : Setup)

/-- Whether the node is a definition whose docstring is checked for its examples. -/
def checksDoctests (n : Node) : Bool :=
  cfg.doctests && n.goesTo ["FUNCTIONDEF", "CLASSDEF"] && n.hasExamples

/-- All scopes that a node stands for, in the walk and later. -/
def scopesOf (n : Node) : Multiset ScopeKind :=
  (cfg.nodeAccount n).1 + (cfg.nodeAccount n).2.bind Duty.scopes

theorem bind_scopesOf (ns : Multiset Node) :
    ns.bind cfg.scopesOf = (cfg.account ns).1 + (cfg.account ns).2.bind Duty.scopes := by
  induction ns using Multiset.induction_on with
  | empty => rfl
  | cons n ns ih =>
    rw [← Multiset.singleton_add, account_add, account_singleton, Prod.fst_add, Prod.snd_add,
      Multiset.add_bind, Multiset.add_bind, ih, Multiset.singleton_bind, scopesOf, add_add_add_comm]

theorem bind_scopes_doctestsOf (n : Node) : (cfg.doctestsOf n).bind Duty.scopes =
    .replicate (cfg.doctests && n.hasExamples).toNat .function := by
  rw [doctestsOf]
  cases cfg.doctests <;> cases hexamples : n.hasExamples <;> simp [Duty.scopes, hexamples]

theorem filterMap_doctestsOf (n : Node) : (cfg.doctestsOf n).filterMap Duty.body? = 0 := by
  rw [doctestsOf]
  split <;> rfl

theorem goesTo_function (n : Node) : n.goesTo ["FUNCTIONDEF", "LAMBDA"] =
    (Rule.of? n.kind).any [Rule.functionDef, .lambda].contains :=
  NodeOf.goesTo_eq (by decide) (by decide) (by decide) n

theorem goesTo_definition (n : Node) : n.goesTo ["FUNCTIONDEF", "CLASSDEF"] =
    (Rule.of? n.kind).any [Rule.functionDef, .classDef].contains :=
  NodeOf.goesTo_eq (by decide) (by decide) (by decide) n

/-- Each node stands for at most one scope of its own, and for one more if its docstring is
checked. -/
theorem scopesOf_eq (n : Node) : cfg.scopesOf n =
    .replicate (n.goesTo ["CLASSDEF"]).toNat .classBody +
    .replicate (n.goesTo ["GENERATOREXP", "SETCOMP", "DICTCOMP"]).toNat .generator +
    .replicate (n.goesTo ["FUNCTIONDEF", "LAMBDA"]).toNat .function +
    .replicate (cfg.checksDoctests n).toNat .function := by
  have hclass : n.goesTo ["CLASSDEF"] = (Rule.of? n.kind).any [Rule.classDef].contains :=
    NodeOf.goesTo_eq (by decide) (by decide) (by decide) n
  have hcomprehension : n.goesTo ["GENERATOREXP", "SETCOMP", "DICTCOMP"] =
      (Rule.of? n.kind).any [Rule.generatorExp, .dictComp].contains :=
    NodeOf.goesTo_eq (by decide) (by decide) (by decide) n
  rw [scopesOf, nodeAccount, checksDoctests, hclass, hcomprehension, goesTo_function, goesTo_definition]
  cases Rule.of? n.kind with
  | none => simp
  | some rule =>
    cases rule <;> simp [ruleAccount, bind_scopes_doctestsOf, Duty.scopes]

/-- The bodies that some nodes put off are those of the functions among them. -/
theorem filterMap_account (ns : Multiset Node) : (cfg.account ns).2.filterMap Duty.body? =
    ns.filter fun n => n.goesTo ["FUNCTIONDEF", "LAMBDA"] := by
  induction ns using Multiset.induction_on with
  | empty => rfl
  | cons n ns ih =>
    have hnode : (cfg.nodeAccount n).2.filterMap Duty.body? =
        ({n} : Multiset Node).filter fun n => n.goesTo ["FUNCTIONDEF", "LAMBDA"] := by
      rw [Multiset.filter_singleton, goesTo_function, nodeAccount]
      cases Rule.of? n.kind with
      | none => simp
      | some rule => cases rule <;> simp [ruleAccount, filterMap_doctestsOf]
    rw [← Multiset.singleton_add, account_add, account_singleton, Prod.snd_add,
      Multiset.filterMap_add, ih, hnode, Multiset.filter_add]

end Setup

theorem bind_replicate_countP (ns : List Node) (p : Node → Bool) (kind : ScopeKind) :
    (ns : Multiset Node).bind (fun n => .replicate (p n).toNat kind) =
      .replicate (ns.countP p) kind := by
  induction ns with
  | nil => rfl
  | cons n rest ih =>
    rw [← Multiset.cons_coe, Multiset.cons_bind, ih, countP_cons, ← Multiset.replicate_add,
      Nat.add_comm]
    cases p n <;> rfl

namespace State

def closedOf (s : State) (kind : ScopeKind) : Nat :=
  s.dead.toList.countP fun id => s.kindOf id == some kind

theorem countP_kindOf (s : State) (kind : ScopeKind) :
    (range s.scopes.size).countP (fun id => s.kindOf id == some kind) =
      s.kinds.count kind := by
  have hmap : (range s.scopes.size).map s.kindOf = s.kinds.map some := by
    refine ext_getElem? fun i => ?_
    simp only [getElem?_map, kinds, Array.getElem?_toList]
    rcases Nat.lt_or_ge i s.scopes.size with hi | hi
    · simp [hi, kindOf, scope?]
    · simp [hi]
  calc (range s.scopes.size).countP (fun id => s.kindOf id == some kind)
      = ((range s.scopes.size).map s.kindOf).countP (· == some kind) := by
        rw [countP_map]
        rfl
    _ = s.kinds.count kind := by
        rw [hmap, countP_map, count]
        refine countP_congr fun k _ => ?_
        simp

/-- Where every scope has been closed once, the closed scopes are all scopes. -/
theorem ClosedBut.closedOf_eq {s : State} (h : s.ClosedBut []) (kind : ScopeKind) :
    s.closedOf kind = s.kinds.count kind := by
  rw [ClosedBut, append_nil] at h
  rw [closedOf, h.countP_eq, countP_kindOf]

variable {cfg : Setup} {s t : State}

variable (h : s.Balanced cfg 0 s.queued.length)

include h

theorem Balanced.census : (s.kinds : Multiset ScopeKind) =
    {.module} + (.replicate (s.dispatched.countP (·.goesTo ["CLASSDEF"])) .classBody +
    .replicate (s.dispatched.countP (·.goesTo ["GENERATOREXP", "SETCOMP", "DICTCOMP"])) .generator +
    .replicate (s.dispatched.countP (·.goesTo ["FUNCTIONDEF", "LAMBDA"])) .function +
    .replicate (s.dispatched.countP cfg.checksDoctests) .function) := by
  have hkinds := h.kinds
  rw [take_length, h.duties, add_assoc, ← cfg.bind_scopesOf] at hkinds
  rw [hkinds, funext cfg.scopesOf_eq, Multiset.bind_add, Multiset.bind_add, Multiset.bind_add]
  simp only [bind_replicate_countP]

theorem Balanced.finished :
    s.finishedBodies ~ s.dispatched.filter (·.goesTo ["FUNCTIONDEF", "LAMBDA"]) := by
  have hbodies := h.bodies
  rw [take_length, h.duties, cfg.filterMap_account, Multiset.filter_coe] at hbodies
  simpa using Multiset.coe_eq_coe.mp hbodies

theorem Balanced.nodup_dispatched : (s.dispatched.map (·.id)).Nodup := by
  have hnodup := h.nodup
  rw [drop_length] at hnodup
  simpa [dutiesOf] using hnodup

end State

namespace Check

variable {cfg : Setup} {visit : Visit} {next : Nat} {s t : State}

/-- After the walk and the bodies, a run closes the module and nothing else. -/
theorem closed_of_run (h : run cfg (State.initial next) = .ok () t) :
    ∃ s, explore cfg (State.initial next) = .ok () s ∧ s.Hears t ∧ t.dead = s.dead.push 0 ∧
      t.stack = [] ∧ t.kindOf 0 = some .module ∧ t.finishedBodies = s.finishedBodies := by
  obtain ⟨s, hexplore, -, hheard, hdead, -⟩ := hears_of_run h
  obtain ⟨r, u, -, hrun, hjudge, hremarks⟩ := run_eq_ok h
  have hjudges : r.atEnd.Says judged u := told_judgeDead.ok hjudge
  have hspeech := (reportRemarks_eq_ok hremarks).1
  refine ⟨s, hexplore, hheard, hdead, ?_, ?_, ?_⟩
  · rw [hspeech.alike.stack_eq, hjudges.alike.stack_eq]
    rfl
  · rw [hspeech.alike.kindOf_eq, hjudges.alike.kindOf_eq]
    exact hrun.orderly.kindOf_zero
  · obtain ⟨es, hes, hnotes⟩ := hheard.notes
    exact State.finishedBodies_of_history hes fun e he => Event.bodyOf?_of_isNote (hnotes e he)

/-- In a run over a tree without shared nodes, no node is dispatched twice. At its end every scope
has been closed once, the module last, and the stack is empty. There is one class scope for each
class, one generator scope for each comprehension with a scope of its own, and one function scope
for each function and for each docstring that was checked for examples; and the body of each
function has been gone through once. -/
theorem run_closes_each_scope_once (cfg : Setup) (next : Nat) (t : State)
    (hnum : cfg.Numbered next) (h : run cfg (State.initial next) = .ok () t) :
    (t.dispatched.map (·.id) = t.marks.map (·.1) ∧ (t.marks.map (·.1)).Nodup) ∧
    (t.dead.toList ~ List.range t.scopes.size ∧ t.dead.back? = some 0 ∧
      t.kindOf 0 = some .module ∧ t.stack = []) ∧
    (t.closedOf .module = 1 ∧
      t.closedOf .classBody = t.dispatched.countP (·.goesTo ["CLASSDEF"]) ∧
      t.closedOf .generator =
        t.dispatched.countP (·.goesTo ["GENERATOREXP", "SETCOMP", "DICTCOMP"]) ∧
      t.closedOf .function = t.dispatched.countP (·.goesTo ["FUNCTIONDEF", "LAMBDA"]) +
        t.dispatched.countP cfg.checksDoctests) ∧
    t.finishedBodies ~ t.dispatched.filter (·.goesTo ["FUNCTIONDEF", "LAMBDA"]) := by
  obtain ⟨s, hexplore, hheard, hdead, hstack, hmodule, hbodies⟩ := closed_of_run h
  have hbalanced := (balanced_explore hnum).ok hexplore
  have hdispatched : t.dispatched = s.dispatched := by
    rw [State.dispatched, hheard.marks_eq, State.dispatched]
  have hkinds : t.kinds = s.kinds := by
    rw [State.kinds, hheard.scopes_eq, State.kinds]
  have hclosed : t.ClosedBut [] := by
    rw [State.ClosedBut, hdead, hheard.scopes_eq]
    simpa [State.ClosedBut] using hbalanced.closed
  have hcount (kind : ScopeKind) : t.closedOf kind = s.kinds.count kind := by
    rw [hclosed.closedOf_eq, hkinds]
  rw [hdispatched, hbodies, hheard.marks_eq]
  refine ⟨⟨hbalanced.resolved, ?_⟩, ⟨?_, ?_, hmodule, hstack⟩, ?_, hbalanced.finished⟩
  · exact hbalanced.resolved ▸ hbalanced.nodup_dispatched
  · simpa [State.ClosedBut] using hclosed
  · rw [hdead]
    exact Array.back?_push
  · refine ⟨?_, ?_, ?_, ?_⟩ <;> rw [hcount, ← Multiset.coe_count, hbalanced.census] <;>
      simp [Multiset.count_replicate]

end Check

namespace Sample

/-- A class with a function that has a docstring with an example, and a comprehension. -/
def documented : Setup :=
  { setup [
      .node ⟨0, "ClassDef", some (.of 1 0), [("name", .text "C"), ("bases", .list []),
        ("keywords", .list []), ("decorator_list", .list []), ("body", .list [function 2 "f" [
          docstring 3 0 ">>> x = 1\n",
          comprehension 4 "x" (name 4 "x" "Load")]])]⟩] with
    doctests := true
    compile := .ofTable [("x = 1\n", .tree ⟨0, "Module", none, [("body", .list [assign 1 "x"])]⟩)] }

end Sample

namespace Check

open Sample

/-- Two function scopes are closed for one function, since its docstring is checked too. -/
theorem run_closes_each_scope_once_documented :
    ∃ t, run documented (State.initial documented.root.size) = .ok () t ∧
      (t.marks.map (·.1)).Nodup ∧ t.dead.toList ~ List.range 5 ∧ t.dead.back? = some 0 ∧
      t.closedOf .classBody = 1 ∧ t.closedOf .generator = 1 ∧ t.closedOf .function = 2 ∧
      t.finishedBodies.length = 1 := by
  have hends : endsWith documented (fun t => t.scopes.size == 5 && (
      t.dispatched.countP (·.goesTo ["CLASSDEF"]) == 1 &&
      t.dispatched.countP (·.goesTo ["GENERATOREXP", "SETCOMP", "DICTCOMP"]) == 1 && (
      t.dispatched.countP (·.goesTo ["FUNCTIONDEF", "LAMBDA"]) == 1 &&
      t.dispatched.countP documented.checksDoctests == 1))) = true := by decide +kernel
  obtain ⟨t, hrun, htest⟩ := endsWith_eq_true hends
  simp only [Bool.and_eq_true, beq_iff_eq] at htest
  obtain ⟨hsize, ⟨hclass, hgenerator⟩, hfunction, hdoctests⟩ := htest
  have hnum : documented.Numbered documented.root.size :=
    ⟨by decide +kernel, by decide +kernel⟩
  obtain ⟨⟨-, hnodup⟩, ⟨hdead, hlast, -, -⟩, ⟨-, hclasses, hgenerators, hfunctions⟩, hbodies⟩ :=
    run_closes_each_scope_once _ _ t hnum hrun
  rw [hsize] at hdead
  rw [hclass] at hclasses
  rw [hgenerator] at hgenerators
  rw [hfunction, hdoctests] at hfunctions
  refine ⟨t, hrun, hnodup, hdead, hlast, hclasses, hgenerators, hfunctions, ?_⟩
  rw [hbodies.length_eq, ← List.countP_eq_length_filter, hfunction]

end Check

end ScopeLint
