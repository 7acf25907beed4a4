import ScopeLint.Proofs.Checker.ExamplePositions
import ScopeLint.Proofs.Checker.Messages
import ScopeLint.Proofs.Checker.Parallel

/-! # Doctests leave the names of a program alone

Whether or not docstrings are looked at, a check gives the same messages about unbound names in the
tree, in the same order, and every scope of the program ends with the same names, bound to the same.
-/
namespace ScopeLint

open List

def Event.subject? : Event → Option Nat
  | .reported _ args => ScopeLint.subject? args
  | _ => none

/-- The messages, each with the number of the node that it is about. The remarks of further checkers are
about no node. -/
def State.log (cfg : Setup) (t : State) : List (Option Nat × Diagnostic) :=
  ((t.said cfg).filterMap fun e => (e.message? cfg).map (e.subject?, ·)) ++
    cfg.remarked.filterMap fun r => (r.message? cfg).map (none, ·)

/-- A message on a name that is not bound, about a node of the tree. -/
def Setup.isOnTree (cfg : Setup) (m : Option Nat × Diagnostic) : Bool :=
  m.2.kind.isOnNames && m.1.any fun id => cfg.root.nodes.any (·.id == id)

namespace State

variable {cfg : Setup} {next : Nat} {s t : State}

theorem map_log (cfg : Setup) (t : State) : (t.log cfg).map Prod.snd =
    (t.said cfg).filterMap (Event.message? cfg) ++ cfg.remarked.filterMap (Remark.message? cfg) := by
  simp [log, map_filterMap, Option.map_map, Function.comp_def]

theorem filter_log (cfg : Setup) (t : State) : (t.log cfg).filter cfg.isOnTree =
    (((t.said cfg).filterMap Event.nameReport?).filter fun r =>
      (ScopeLint.subject? r.2).any fun id => cfg.root.nodes.any (·.id == id)).filterMap fun r =>
        (cfg.message? r.1 r.2 []).map (ScopeLint.subject? r.2, ·) := by
  have hremarks : (cfg.remarked.filterMap fun r => (r.message? cfg).map (none, ·)).filter
      cfg.isOnTree = [] := by
    refine filter_eq_nil_iff.mpr fun m hm => ?_
    obtain ⟨r, -, hr⟩ := mem_filterMap.mp hm
    obtain ⟨d, -, rfl⟩ := Option.map_eq_some_iff.mp hr
    simp [Setup.isOnTree]
  rw [log, filter_append, hremarks, append_nil, filter_filterMap, filterMap_filter,
    filterMap_filterMap]
  refine filterMap_congr fun e _ => ?_
  cases e with
  | reported k args =>
    simp only [Event.message?, Event.subject?, Event.nameReport?]
    cases hd : cfg.message? k args [] with
    | none => by_cases hk : k.isOnNames <;> simp [hk, hd]
    | some d =>
      have hkind := Setup.kind_of_message? hd
      by_cases hk : k.isOnNames <;> simp [hk, hd, hkind, Setup.isOnTree, Option.filter]
  | _ => rfl

theorem filter_nameReports (hnum : cfg.Numbered next) (s : State) : (s.nameReports.filter fun r =>
      (ScopeLint.subject? r.2).any fun id => cfg.root.nodes.any (·.id == id)) =
    (s.reportsBelow next).filter fun r =>
      (ScopeLint.subject? r.2).any fun id => cfg.root.nodes.any (·.id == id) := by
  rw [reportsBelow, filter_filter]
  refine filter_congr fun r _ => ?_
  cases ScopeLint.subject? r.2 with
  | none => rfl
  | some id =>
    rw [Bool.eq_iff_iff]
    simp only [Option.any_some, Bool.and_eq_true, any_eq_true, beq_iff_eq, decide_eq_true_eq]
    refine ⟨?_, And.left⟩
    rintro ⟨n, hn, rfl⟩
    exact ⟨⟨n, hn, rfl⟩, hnum.bounded n hn⟩

theorem held_of_scopes (h : t.scopes = s.scopes) (id : ScopeId) (key : Datum.Key) :
    t.held id key = s.held id key := by
  rw [held, held, binding?, binding?, scope?, scope?, h]

end State

namespace Check

/-- Two checks of one tree, of which only the second looks at docstrings, give the same messages on
names that are not bound about the nodes of the tree. Every scope of the first has one of its own in
the second with the same names, bound to the same. -/
theorem doctests_leave_names_alone (cfg : Setup) (next : Nat) (hnum : cfg.Numbered next) (s t : State)
    (hoff : run (cfg.withDoctests false) (State.initial next) = .ok () s)
    (hon : run (cfg.withDoctests true) (State.initial next) = .ok () t) :
    ((s.log cfg).map Prod.snd = s.messages.toList ∧ (t.log cfg).map Prod.snd = t.messages.toList) ∧
    (s.log cfg).filter cfg.isOnTree = (t.log cfg).filter cfg.isOnTree ∧
    ∃ f : ScopeId → ScopeId, Set.InjOn f {id | id < s.scopes.size} ∧ ∀ id, id < s.scopes.size →
      f id < t.scopes.size ∧ t.viewOf (f id) = s.viewOf id ∧
        ∀ key, t.held (f id) key = s.held id key := by
  obtain ⟨u, hexplore, hscopes, hreports, hmessages⟩ := said_of_run hoff
  obtain ⟨w, hexplore', hscopes', hreports', hmessages'⟩ := said_of_run hon
  obtain ⟨old, hparallel⟩ := Parallel.explore hnum hexplore hexplore'
  refine ⟨⟨(s.map_log cfg).trans hmessages.symm, (t.map_log cfg).trans hmessages'.symm⟩, ?_, ?_⟩
  · rw [s.filter_log, t.filter_log]
    have hsaid : (s.said cfg).filterMap Event.nameReport? = u.nameReports := hreports
    have hsaid' : (t.said cfg).filterMap Event.nameReport? = w.nameReports := hreports'
    rw [hsaid, hsaid', State.filter_nameReports hnum, State.filter_nameReports hnum,
      hparallel.reports_eq]
  · have hpaired (i : Nat) : ∃ j, i < u.scopes.size → old i j := by
      by_cases hi : i < u.scopes.size
      · obtain ⟨j, hj⟩ := hparallel.total i hi
        exact ⟨j, fun _ => hj⟩
      · exact ⟨0, fun h => absurd h hi⟩
    choose f hf using hpaired
    rw [State.viewOf_of_scopes hscopes, State.viewOf_of_scopes hscopes', hscopes, hscopes']
    refine ⟨f, fun i hi j hj heq => (hparallel.iff (hf i hi) (hf j hj)).mpr heq, fun i hi => ?_⟩
    refine ⟨(hparallel.lt (hf i hi)).2, (hparallel.view_eq (hf i hi)).symm, fun key => ?_⟩
    rw [State.held_of_scopes hscopes, State.held_of_scopes hscopes', hparallel.held_eq (hf i hi)]

end Check

namespace Sample

/-- A function that uses its own name before it binds it, and a name that only an example binds. The
other example uses a name that nothing binds. -/
def misled : Setup :=
  { setup [function 1 "f" [docstring 4 0 ">>> x = 1\n>>> y\n", name 5 "f" "Load", assign 6 "f",
      name 7 "x" "Load"]] with
    compile := .ofTable [("x = 1\n", .tree ⟨0, "Module", none, [("body", .list [assign 1 "x"])]⟩),
      ("y\n", .tree ⟨0, "Module", none, [("body", .list [name 1 "y" "Load"])]⟩)] }

end Sample

open Sample in
/-- The second check gives one message more, about the name in the example. -/
theorem Check.doctests_leave_names_alone_misled : ∃ s t,
    run (misled.withDoctests false) (State.initial misled.root.size) = .ok () s ∧
    run (misled.withDoctests true) (State.initial misled.root.size) = .ok () t ∧
    s.messages.size = 3 ∧ t.messages.size = 4 ∧
    ((s.log misled).filter misled.isOnTree).map (·.2.line.integer?) = [some 5, some 7] ∧
    (s.log misled).filter misled.isOnTree = (t.log misled).filter misled.isOnTree := by
  have hnum : misled.Numbered misled.root.size := ⟨by decide +kernel, by decide +kernel⟩
  have hoff : endsWith (misled.withDoctests false) (fun s => s.messages.size == 3 && decide
      (((s.log misled).filter misled.isOnTree).map (·.2.line.integer?) = [some 5, some 7])) = true := by
    decide +kernel
  have hon : endsWith (misled.withDoctests true) (·.messages.size == 4) = true := by decide +kernel
  obtain ⟨s, hs, htest⟩ := endsWith_eq_true hoff
  obtain ⟨t, ht, htest'⟩ := endsWith_eq_true hon
  rw [Bool.and_eq_true, beq_iff_eq, decide_eq_true_eq] at htest
  obtain ⟨-, hsame, -⟩ := doctests_leave_names_alone misled _ hnum s t hs ht
  exact ⟨s, t, hs, ht, htest.1, beq_iff_eq.mp htest', htest.2, hsame⟩

end ScopeLint
