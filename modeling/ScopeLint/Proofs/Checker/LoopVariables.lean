import ScopeLint.Proofs.Checker.Reading
import ScopeLint.Proofs.Checker.Resolution

/-! # Loop variables that take the names of imports

The target of a loop is compared name by name with the used imports of the current scope. All names in
it are looked at, also those that are only loaded there. -/
namespace ScopeLint

/-- The import that a name stands for in the current scope, if it has been used. -/
def State.usedImport? (s : State) (x : String) : Option (String × Value) :=
  match s.stack.head?.bind (s.binding? · (.text x)) with
  | some b => if b.kind.isImportation && b.isUsed then some (x, b.source) else none
  | none => none

/-- Whether a plain name is bound where it stands. -/
def NodeOf.isStored (n : Node) : Bool := (n.field? "ctx").any (·.isKind "Store")

/-- Nothing is lost in a filter where only what is left out anyway is filtered out. -/
theorem filterMap_eq_filter_iff {α β : Type} (f : α → Option β) (p : α → Bool) (xs : List α) :
    xs.filterMap f = (xs.filter p).filterMap f ↔ ∀ x ∈ xs, p x = false → f x = none := by
  induction xs with
  | nil => simp
  | cons x rest ih =>
    cases hf : f x with
    | none => cases hp : p x <;> simp [hp, hf, ih]
    | some y =>
      cases hp : p x with
      | true => simp [hp, hf, ih]
      | false =>
        have hle := ((List.filter_sublist (p := p) (l := rest)).filterMap f).length_le
        have hne : y :: rest.filterMap f ≠ (rest.filter p).filterMap f := by
          intro heq
          rw [← heq, List.length_cons] at hle
          omega
        simp [hp, hf, hne]

namespace Check

variable {cfg : Setup} {n : Node} {s t : State}

/-- Reports about a loop, one for each import whose name it takes. -/
def reportTaken (cfg : Setup) (n : Node) (imports : List (String × Value)) : Check Unit :=
  imports.forM fun i => do
    report cfg .importShadowedByLoopVar (.node n) [.text i.1, ← datum i.2]

theorem usedImport?_of_speech {kinds : List Kind} (h : s.Says kinds t) :
    t.usedImport? = s.usedImport? := by
  rw [h.frame]
  rfl

theorem reportShadowing_eq_ok {x : String} (h : reportShadowing cfg n (.text x) s = .ok () t) :
    reportTaken cfg n (s.usedImport? x).toList s = .ok () t := by
  obtain ⟨top, rest, scope, hstack, hscope, h⟩ := current_bind_eq_ok h
  obtain ⟨key, hkey, h⟩ := lift_bind_eq_ok.mp h
  cases hkey
  have hfind : s.stack.head?.bind (s.binding? · (.text x)) = scope.find? (.text x) := by
    simp [hstack, State.binding?, hscope]
  rw [State.usedImport?, hfind]
  cases hb : scope.find? (.text x) with
  | none =>
    rw [hb] at h
    exact h
  | some b =>
    rw [hb] at h
    by_cases hused : (b.kind.isImportation && b.isUsed) = true
    · simp only [hused, if_true] at h ⊢
      exact bind_apply_eq_ok.mpr ⟨(), t, h, rfl⟩
    · simp only [hused] at h ⊢
      exact h

theorem reportTaken_of_names {names : List String}
    (h : (names.map Datum.text).forM (reportShadowing cfg n) s = .ok () t) :
    reportTaken cfg n (names.filterMap s.usedImport?) s = .ok () t := by
  induction names generalizing s with
  | nil => exact h
  | cons x rest ih =>
    obtain ⟨_, u, hfirst, hrest⟩ := bind_apply_eq_ok.mp h
    have hlater := ih hrest
    rw [usedImport?_of_speech ((told_reportShadowing n (.text x)).ok hfirst)] at hlater
    have hsplit : (x :: rest).filterMap s.usedImport? =
        (s.usedImport? x).toList ++ rest.filterMap s.usedImport? := by
      cases hx : s.usedImport? x <;> simp [hx]
    have happend : reportTaken cfg n ((s.usedImport? x).toList ++ rest.filterMap s.usedImport?) =
        reportTaken cfg n (s.usedImport? x).toList >>= fun _ =>
          reportTaken cfg n (rest.filterMap s.usedImport?) := List.forM_append
    rw [hsplit, happend]
    exact bind_apply_eq_ok.mpr ⟨(), u, reportShadowing_eq_ok hfirst, hlater⟩

/-- Which names in the target of a loop are reported, and when these are just the names that the loop
binds. -/
theorem loop_names_reported {d : Dialect} {visit : Visit} {target : Node} (hn : n.IsWhole d)
    (hget : n.get "target" = .ok (.node target)) (h : ruleFor cfg visit n s = .ok () t) :
    let names := target.nodes.filterMap NodeOf.identifier?
    let bound := (target.nodes.filter NodeOf.isStored).filterMap NodeOf.identifier?
    (∃ u, reportTaken cfg n (names.filterMap s.usedImport?) s = .ok () u ∧
      visitChildren visit n u = .ok () t) ∧
    (names.filterMap s.usedImport? = bound.filterMap s.usedImport? ↔
      ∀ m ∈ target.nodes, m.isStored = false → m.identifier?.bind s.usedImport? = none) := by
  intro names bound
  constructor
  · obtain ⟨_, hget', h⟩ := lift_bind_eq_ok.mp h
    cases hget.symm.trans hget'
    have hwhole : target.IsWhole d := hn.child (NodeOf.mem_children_of_get hget (List.mem_cons_self))
    rw [Value.size, loopNames_eq hwhole (Nat.le_refl _)] at h
    obtain ⟨_, hnames, h⟩ := lift_bind_eq_ok.mp h
    cases hnames
    obtain ⟨_, u, hreports, hvisit⟩ := bind_apply_eq_ok.mp h
    exact ⟨u, reportTaken_of_names hreports, hvisit⟩
  · simp only [names, bound, List.filterMap_filterMap]
    exact filterMap_eq_filter_iff _ _ _

end Check

namespace Sample

open Check

/-- The node 9 is a loop with this target, after a use of an import of `os`. -/
def loopAfterUse (target : Value) : Setup :=
  setup [assign 1 "x", importName 2 "os", name 3 "os" "Load",
    .node ⟨0, "For", some (.of 4 0), [("target", target), ("iter", name 4 "x" "Load"),
      ("body", .list []), ("orelse", .list [])]⟩]

/-- The loop binds `os` in a tuple. -/
def loopOverOs : Setup := loopAfterUse (tuple 4 [name 4 "x" "Store", name 4 "os" "Store"])

def beforeLoop : State := reached loopOverOs (atNode 9) loopOverOs.root.size

/-- The loop binds `x[os]`. -/
def loopAtOs : Setup :=
  loopAfterUse (.node ⟨0, "Subscript", some (.of 4 0), [("value", name 4 "x" "Load"),
    ("slice", .node ⟨0, "Index", none, [("value", name 4 "os" "Load")]⟩),
    ("ctx", .node ⟨0, "Store", none, []⟩)]⟩)

end Sample

namespace Check

open Sample

/-- Both names of a tuple are bound, and one of them is reported. -/
theorem loop_names_reported_tuple : (nodeOf loopOverOs 9).IsWhole .threeFour ∧
    (nodeOf loopOverOs 9).get "target" = .ok (.node (nodeOf loopOverOs 10)) ∧ ∃ t u,
    ruleFor loopOverOs (visit loopOverOs) (nodeOf loopOverOs 9) beforeLoop = .ok () t ∧
    reportTaken loopOverOs (nodeOf loopOverOs 9) (["x", "os"].filterMap beforeLoop.usedImport?)
      beforeLoop = .ok () u ∧
    (["x", "os"].filterMap beforeLoop.usedImport?).map (·.1) = ["os"] := by
  have hwhole : (nodeOf loopOverOs 9).IsWhole .threeFour := by
    unfold NodeOf.IsWhole
    decide +kernel
  have hends : finishes (ruleFor loopOverOs (visit loopOverOs) (nodeOf loopOverOs 9)) beforeLoop =
      true := by decide +kernel
  have hnames : (nodeOf loopOverOs 10).nodes.filterMap NodeOf.identifier? = ["x", "os"] := by
    decide +kernel
  obtain ⟨t, hrun⟩ := exists_of_finishes hends
  obtain ⟨⟨u, hreports, -⟩, -⟩ := loop_names_reported hwhole rfl hrun
  exact ⟨hwhole, rfl, t, u, hrun, hnames ▸ hreports, by decide +kernel⟩

/-- A loop that stores to an item at a used import does not bind the import, and is reported. -/
theorem loop_over_item_reported :
    endsWith loopAtOs (fun t => t.messages.toList.map (·.text) ==
      ["(none):4: import 'os' from line 2 shadowed by loop variable"]) = true := by
  decide +kernel

end Check

end ScopeLint
