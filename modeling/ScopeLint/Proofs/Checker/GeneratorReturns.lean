import ScopeLint.Proofs.Checker.NameUses
import ScopeLint.Proofs.Checker.Unrolling

/-! # Generators that return a value

Whether a function is a generator, and where it returns a value, is looked for in bodies only: in that
of the function and in those of the statements there, also of classes, but not in what else belongs to
a statement. -/
namespace ScopeLint

open List

variable {n m : Node} {fuel : Nat}

namespace NodeOf

/-- Kinds of nodes whose body is a list of statements, in the older grammar. -/
def suiteKinds : List String :=
  ["FunctionDef", "ClassDef", "For", "While", "If", "With", "TryExcept", "TryFinally",
    "ExceptHandler"]

/-- What the older grammar says of the bodies of nodes, and of the values of statements. -/
def hasOlderForm (n : Node) : Bool :=
  (match n.field? "body" with
    | some (.list items) => suiteKinds.contains n.kind && items.all (·.node?.isSome)
    | some (.node _) => ["Exec", "Lambda", "IfExp"].contains n.kind
    | some _ => false
    | none => !(suiteKinds ++ ["Exec", "Lambda", "IfExp"]).contains n.kind) &&
  (match n.field? "value" with
    | some (.node _) => true
    | some .null => !(["Assign", "Expr"].contains n.kind)
    | _ => !(["Assign", "Expr", "Return"].contains n.kind))

def suite (n : Node) : List Node :=
  match n.field? "body" with
  | some (.list items) => items.filterMap Value.node?
  | _ => []

def IsOlder (n : Node) : Prop :=
  n.hasOlderForm = true ∧ ∀ m ∈ n.suite, ∀ k ∈ m.nodes, k.hasOlderForm = true

def isOpen (n : Node) : Bool := n.kind != "FunctionDef" && n.has "body"

/-- The statements in the body, each before those in its own body unless it is a function. -/
def searchedWithin : Nat → Node → List Node
  | 0, _ => []
  | fuel + 1, n =>
    n.suite.flatMap fun m => m :: if m.isOpen then searchedWithin fuel m else []

def searched (n : Node) : List Node := searchedWithin n.size n

def yields (n : Node) : Bool :=
  (n.kind == "Assign" || n.kind == "Expr") && (n.field? "value").any (·.isKind "Yield")

def returnsValue (n : Node) : Bool := n.kind == "Return" && (n.field? "value").any Value.truthy

def hasLoneBody (n : Node) : Bool := (n.field? "body").any (·.node?.isSome)

/-- The code of a function itself: what is in its body, but not in a function or class there. -/
inductive Own (n : Node) : Node → Prop
  | body {m : Node} : m ∈ n.suite → Own n m
  | under {m k : Node} : Own n m → ["FunctionDef", "ClassDef", "Lambda"].contains m.kind = false →
      k ∈ m.children → Own n k

/-- The code of the function itself has both a `yield` and a `return` with a value. -/
def ReturnsFromGenerator (n : Node) : Prop :=
  (∃ y, n.Own y ∧ y.kind = "Yield") ∧ ∃ r, n.Own r ∧ r.returnsValue = true

variable {f : Node}

theorem mem_children_of_mem_suite (h : m ∈ n.suite) : m ∈ n.children := by
  rw [suite] at h
  split at h
  · next items hbody =>
    refine mem_children_of_get (by rw [get, hbody]) (v := .list items) ?_
    exact h
  · cases h

theorem IsOlder.suite (h : n.IsOlder) (hm : m ∈ n.suite) : m.IsOlder := by
  refine ⟨h.2 m hm m (by rw [nodes_eq]; exact mem_cons_self), fun k hk i hi => ?_⟩
  have hbelow := mem_nodes_of_mem_children (mem_children_of_mem_suite hk)
  exact h.2 m hm i ((sublist_of_mem_nodes m hbelow).subset hi)

/-- The body of a node of the older grammar is a list of statements, an expression, or missing. -/
theorem body_cases (h : n.hasOlderForm = true) :
    (n.field? "body" = some (.list (n.suite.map .node)) ∧ n.kind ∈ suiteKinds) ∨
    (n.suite = [] ∧ n.kind ∉ suiteKinds ∧
      ((∃ m, n.field? "body" = some (.node m)) ∨ n.field? "body" = none)) := by
  have hbody := (Bool.and_eq_true _ _ ▸ h).1
  have hapart : ∀ kind ∈ ["Exec", "Lambda", "IfExp"], kind ∉ suiteKinds := by decide
  split at hbody
  · next items hitems =>
    obtain ⟨hkind, hnodes⟩ := Bool.and_eq_true _ _ ▸ hbody
    have hsuite : n.suite.map .node = items := by
      rw [suite, hitems, map_filterMap]
      refine (filterMap_congr fun v hv => ?_).trans filterMap_some
      cases v with
      | node m => rfl
      | _ => cases all_eq_true.mp hnodes _ hv
    exact .inl ⟨by rw [hitems, hsuite], by simpa using hkind⟩
  · next m hm =>
    exact .inr ⟨by rw [suite, hm], hapart _ (by simpa using hbody), .inl ⟨m, hm⟩⟩
  · cases hbody
  · next hnone =>
    have hkind : n.kind ∉ suiteKinds ++ ["Exec", "Lambda", "IfExp"] := by simpa using hbody
    exact .inr ⟨by rw [suite, hnone], fun hmem => hkind (mem_append_left _ hmem), .inr hnone⟩

/-- A statement that is looked at for its value has one, and has no body. -/
theorem value_of_hasOlderForm (h : n.hasOlderForm = true)
    (hkind : n.kind = "Assign" ∨ n.kind = "Expr" ∨ n.kind = "Return") :
    n.field? "body" = none ∧ ∃ v, n.field? "value" = some v := by
  obtain ⟨hbody, hvalue⟩ := Bool.and_eq_true _ _ ▸ h
  constructor
  · split at hbody <;> rcases hkind with hk | hk | hk <;> simp [hk, suiteKinds] at hbody ⊢
    all_goals assumption
  · cases hv : n.field? "value" with
    | some v => exact ⟨v, rfl⟩
    | none => rcases hkind with hk | hk | hk <;> simp [hv, hk] at hvalue

/-- Where no class is searched, only code of the function itself is. -/
theorem own_of_mem_searchedWithin (hn : n.IsOlder)
    (hclass : ∀ k ∈ n.searchedWithin fuel, k.kind ≠ "ClassDef") (hown : ∀ k ∈ n.suite, f.Own k)
    (hm : m ∈ n.searchedWithin fuel) : f.Own m := by
  induction fuel generalizing n with
  | zero => cases hm
  | succ fuel ih =>
    rw [searchedWithin] at hclass hm
    obtain ⟨k, hk, hm⟩ := mem_flatMap.mp hm
    rcases mem_cons.mp hm with rfl | hbelow
    · exact hown m hk
    · split at hbelow
      · next hopen =>
        have hinner {i : Node} (hi : i ∈ k.searchedWithin fuel) : i.kind ≠ "ClassDef" :=
          hclass i (mem_flatMap.mpr ⟨k, hk, by simp [hopen, hi]⟩)
        have hself : k.kind ≠ "ClassDef" := hclass k (mem_flatMap.mpr ⟨k, hk, by simp⟩)
        refine ih (hn.suite hk) (fun _ => hinner) (fun i hi => ?_) hbelow
        refine .under (hown k hk) ?_ (mem_children_of_mem_suite hi)
        rcases body_cases (hn.suite hk).1 with ⟨-, hkind⟩ | ⟨hempty, -⟩
        · have hlambda : k.kind ≠ "Lambda" := fun heq => by simp [heq, suiteKinds] at hkind
          have hdef : k.kind ≠ "FunctionDef" := bne_iff_ne.mp (Bool.and_eq_true _ _ ▸ hopen).1
          simp [hself, hdef, hlambda]
        · simp [hempty] at hi
      · cases hbelow

/-- The `yield` of a statement that belongs to the function belongs to it too. -/
theorem Own.exists_yield (h : f.Own m) (hm : m.yields = true) :
    ∃ y, f.Own y ∧ y.kind = "Yield" := by
  obtain ⟨hkind, hvalue⟩ := Bool.and_eq_true _ _ ▸ hm
  cases hv : m.field? "value" with
  | none => simp [hv] at hvalue
  | some v =>
    rw [hv] at hvalue
    cases v with
    | node y =>
      have hchild : y ∈ m.children :=
        mem_children_of_get (by rw [get, hv]) (v := .node y) mem_cons_self
      refine ⟨y, .under h ?_ hchild, beq_iff_eq.mp hvalue⟩
      rcases Bool.or_eq_true _ _ ▸ hkind with hk | hk <;> rw [beq_iff_eq.mp hk] <;> decide
    | _ => cases hvalue

theorem hasLoneBody_of_not_isOpen (h : n.hasOlderForm = true) (hopen : n.isOpen = false) :
    n.hasLoneBody = false := by
  rcases body_cases h with ⟨hlist, -⟩ | ⟨-, hkind, ⟨m, hlone⟩ | hnone⟩
  · rw [hasLoneBody, hlist]
    rfl
  · have hdef : n.kind = "FunctionDef" := by simpa [isOpen, has, hlone] using hopen
    exact absurd (by rw [hdef]; decide) hkind
  · rw [hasLoneBody, hnone]
    rfl

end NodeOf

variable {p : Node → Bool} {ms : List Node}

/-- What a search answers that may stop at a statement that cannot be searched. -/
def answer : Option Node → Except Fault (Option Value)
  | none => .ok none
  | some m => if m.returnsValue then .ok (some (.node m)) else .error .wrongType

/-- Where the search for a `return` ends: there, or at a body that is an expression. -/
def NodeOf.stops (m : Node) : Bool := m.returnsValue || m.hasLoneBody

theorem firstM_map_eq {f : Value → Except Fault (Option Value)} {g : Node → List Node}
    (h : ∀ m ∈ ms, f (.node m) = answer ((g m).find? p)) :
    firstM f (ms.map .node) = answer ((ms.flatMap g).find? p) := by
  induction ms with
  | nil => rfl
  | cons m rest ih =>
    rw [map_cons, firstM, h m mem_cons_self, flatMap_cons, find?_append,
      ih fun k hk => h k (mem_cons_of_mem _ hk)]
    cases hm : (g m).find? p with
    | none => rfl
    | some r =>
      rw [Option.some_or, answer]
      split <;> rfl

section

theorem size_le_of_mem_suite (hfuel : n.size ≤ fuel + 1) (hm : m ∈ n.suite) : m.size ≤ fuel := by
  have hlt := NodeOf.size_lt_of_mem_children (NodeOf.mem_children_of_mem_suite hm)
  omega

/-- The search for a `yield` finds those that are values of the statements it looks at. -/
theorem isGeneratorWithin_eq (hfuel : n.size ≤ fuel) (hn : n.IsOlder)
    (hbody : n.has "body" = true) :
    isGeneratorWithin fuel (.node n) = .ok ((n.searchedWithin fuel).any NodeOf.yields) := by
  induction fuel generalizing n with
  | zero =>
    rw [n.size_eq] at hfuel
    omega
  | succ fuel ih =>
    rw [isGeneratorWithin, Value.get, NodeOf.get, NodeOf.searchedWithin]
    rcases NodeOf.body_cases hn.1 with ⟨hlist, -⟩ | ⟨hsuite, -, ⟨m, hlone⟩ | hnone⟩
    · rw [hlist, any_flatMap]
      refine anyM_eq_ok rfl fun m hm => ?_
      have hinner := ih (size_le_of_mem_suite hfuel hm) (hn.suite hm)
      by_cases hvalue : m.kind = "Assign" ∨ m.kind = "Expr"
      · obtain ⟨hnone, v, hv⟩ := NodeOf.value_of_hasOlderForm (hn.suite hm).1
          (hvalue.imp_right .inl)
        have hopen : m.isOpen = false := by simp [NodeOf.isOpen, NodeOf.has, hnone]
        rcases hvalue with hk | hk <;>
          simp [Value.isKind, Value.get, NodeOf.get, NodeOf.yields, hv, hk, hopen]
      · have hkinds : (m.kind == "Assign" || m.kind == "Expr") = false := by simpa using hvalue
        have hyields : m.yields = false := by rw [NodeOf.yields, hkinds, Bool.false_and]
        change (if (m.kind == "Assign" || m.kind == "Expr") = true then _ else
          if m.isOpen = true then isGeneratorWithin fuel (.node m) else _) = _
        rw [hkinds, any_cons, hyields]
        cases hopen : m.isOpen with
        | false => rfl
        | true => exact hinner (Bool.and_eq_true _ _ ▸ hopen).2
    · rw [hlone, hsuite]
      rfl
    · simp [NodeOf.has, hnone] at hbody

/-- The search for a `return` ends at the first statement with a value, or at a body that is an
expression. -/
theorem returnWithin_eq (hfuel : n.size ≤ fuel) (hn : n.IsOlder) (hbody : n.has "body" = true) :
    returnWithin fuel (.node n) = if n.hasLoneBody then .error .wrongType else
      answer ((n.searchedWithin fuel).find? NodeOf.stops) := by
  induction fuel generalizing n with
  | zero =>
    rw [n.size_eq] at hfuel
    omega
  | succ fuel ih =>
    rw [returnWithin, Value.get, NodeOf.get, NodeOf.searchedWithin, NodeOf.hasLoneBody]
    rcases NodeOf.body_cases hn.1 with ⟨hlist, -⟩ | ⟨-, -, ⟨m, hlone⟩ | hnone⟩
    · rw [hlist]
      refine firstM_map_eq fun m hm => ?_
      have hinner := ih (size_le_of_mem_suite hfuel hm) (hn.suite hm)
      refine Eq.trans (b := if m.returnsValue then .ok (some (.node m)) else
        if m.isOpen then returnWithin fuel (.node m) else .ok none) ?_ ?_
      · cases hkind : m.kind == "Return" with
        | false =>
          simp only [Value.isKind, NodeOf.returnsValue, hkind]
          rfl
        | true =>
          obtain ⟨-, v, hv⟩ := NodeOf.value_of_hasOlderForm (hn.suite hm).1
            (.inr (.inr (beq_iff_eq.mp hkind)))
          simp only [Value.isKind, NodeOf.returnsValue, hkind, Value.get, NodeOf.get, hv]
          rfl
      rw [find?_cons, NodeOf.stops]
      cases hvalue : m.returnsValue with
      | true => simp [answer, hvalue]
      | false =>
        cases hopen : m.isOpen with
        | false =>
          rw [NodeOf.hasLoneBody_of_not_isOpen (hn.suite hm).1 hopen]
          rfl
        | true =>
          refine (hinner (Bool.and_eq_true _ _ ▸ hopen).2).trans ?_
          cases m.hasLoneBody with
          | true => simp [answer, hvalue]
          | false => rfl
    · rw [hlone]
      rfl
    · simp [NodeOf.has, hnone] at hbody

end

namespace Check

variable {cfg : Setup}

/-- What follows from the statement where the search for a `return` ends. -/
def conclude (cfg : Setup) : Option Node → Check Unit
  | none => return
  | some m =>
    if m.returnsValue then report cfg .returnInGenerator (.node m) [] else throw .wrongType

theorem reportReturns_eq (hn : n.IsOlder) (hkind : n.kind = "FunctionDef") :
    reportReturns cfg n = if n.searched.any NodeOf.yields then
      conclude cfg (n.searched.find? NodeOf.stops) else return := by
  rcases NodeOf.body_cases hn.1 with ⟨hlist, -⟩ | ⟨-, hno, -⟩
  · have hbody : n.has "body" = true := by rw [NodeOf.has, hlist]; rfl
    have hlone : n.hasLoneBody = false := by rw [NodeOf.hasLoneBody, hlist]; rfl
    rw [reportReturns, isGenerator, returnWithValue, Value.size,
      isGeneratorWithin_eq (Nat.le_refl _) hn hbody, returnWithin_eq (Nat.le_refl _) hn hbody, hlone]
    change (if n.searched.any NodeOf.yields = true then
      lift (answer (n.searched.find? NodeOf.stops)) >>= _ else _) = _
    cases n.searched.find? NodeOf.stops with
    | none => rfl
    | some m =>
      rw [answer, conclude]
      cases m.returnsValue <;> rfl
  · exact absurd (by rw [hkind]; decide) hno

/-- What is reported about a function that returns a value, and when this is right: with no class and
no expression for a body among the statements that are looked at. -/
theorem generator_returns_reported (hn : n.IsOlder) (hkind : n.kind = "FunctionDef") :
    reportReturns cfg n = (if n.searched.any NodeOf.yields then
      conclude cfg (n.searched.find? NodeOf.stops) else return) ∧
    ((∀ m ∈ n.searched, m.kind ≠ "ClassDef" ∧ m.hasLoneBody = false) → ∃ found : Option Node,
      reportReturns cfg n = conclude cfg found ∧
      (∀ r ∈ found, r.returnsValue = true ∧ n.Own r ∧ n.ReturnsFromGenerator) ∧
      (found = none ↔ (∀ m ∈ n.searched, m.yields = false) ∨
        ∀ m ∈ n.searched, m.returnsValue = false)) := by
  refine ⟨reportReturns_eq hn hkind, fun hplain => ?_⟩
  have hown {m : Node} : m ∈ n.searched → n.Own m :=
    NodeOf.own_of_mem_searchedWithin hn (fun k hk => (hplain k hk).1) fun _ => .body
  have hstops : ∀ m ∈ n.searched, m.stops = m.returnsValue := fun m hm => by
    rw [NodeOf.stops, (hplain m hm).2, Bool.or_false]
  rw [reportReturns_eq hn hkind]
  cases hyields : n.searched.any NodeOf.yields with
  | false => exact ⟨none, rfl, by simp, by simpa using .inl (by simpa using hyields)⟩
  | true =>
    obtain ⟨m, hm, hyield⟩ := any_eq_true.mp hyields
    refine ⟨n.searched.find? NodeOf.stops, rfl, fun r hr => ?_, ?_⟩
    · have hmem := mem_of_find?_eq_some hr
      have hvalue := hstops r hmem ▸ find?_some hr
      exact ⟨hvalue, hown hmem, (hown hm).exists_yield hyield, r, hown hmem, hvalue⟩
    · rw [find?_eq_none, or_iff_right fun hno => by simp [hno m hm] at hyield]
      exact forall₂_congr fun m hm => by rw [hstops m hm, Bool.not_eq_true]

end Check

namespace Sample

/-- A condition, after which the function returns a value. -/
def conditionalYield (body orelse : List Value) : Setup :=
  setupTwoSeven [function 1 "f" [
    .node ⟨0, "If", some (.of 2 0), [("test", number 2 1), ("body", .list body),
      ("orelse", .list orelse)]⟩,
    .node ⟨0, "Return", some (.of 5 0), [("value", number 5 2)]⟩]]

def yieldOne : Value :=
  .node ⟨0, "Expr", some (.of 3 0), [("value", .node ⟨0, "Yield", some (.of 3 0),
    [("value", number 3 1)]⟩)]⟩

/-- The function that is the node 1 yields where its condition holds. -/
def yieldInBody : Setup := conditionalYield [yieldOne] [pass 3]

/-- It yields where its condition does not hold. -/
def yieldInElse : Setup := conditionalYield [pass 3] [yieldOne]

end Sample

namespace Check

open Sample

theorem generator_returns_reported_nested : (nodeOf yieldInBody 1).IsOlder ∧
    (nodeOf yieldInBody 1).kind = "FunctionDef" ∧
    reportReturns yieldInBody (nodeOf yieldInBody 1) =
      report yieldInBody .returnInGenerator (.node (nodeOf yieldInBody 9)) [] := by
  have hform : (nodeOf yieldInBody 1).IsOlder := by
    unfold NodeOf.IsOlder
    decide +kernel
  have hkind : (nodeOf yieldInBody 1).kind = "FunctionDef" := by decide +kernel
  refine ⟨hform, hkind, (generator_returns_reported hform hkind).1.trans ?_⟩
  have hyields : (nodeOf yieldInBody 1).searched.any NodeOf.yields = true := by decide +kernel
  rw [hyields]
  rfl

/-- A `yield` in the other part of a condition is not found, and nothing is reported. -/
theorem yield_in_else_not_found : (nodeOf yieldInElse 1).ReturnsFromGenerator ∧
    endsWith yieldInElse (·.messages.isEmpty) = true := by
  have hif : (nodeOf yieldInElse 1).Own (nodeOf yieldInElse 3) :=
    .body (mem_of_getElem? (i := 0) rfl)
  have hyield : (nodeOf yieldInElse 1).Own (nodeOf yieldInElse 7) :=
    .under (.under hif rfl (mem_of_getElem? (i := 2) (a := nodeOf yieldInElse 6) rfl)) rfl
      (mem_of_getElem? (i := 0) rfl)
  have hreturn : (nodeOf yieldInElse 1).Own (nodeOf yieldInElse 9) :=
    .body (mem_of_getElem? (i := 1) rfl)
  exact ⟨⟨⟨_, hyield, rfl⟩, _, hreturn, rfl⟩, by decide +kernel⟩

end Check

end ScopeLint
