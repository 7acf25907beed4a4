import ScopeLint.Proofs.Checker.NameUses
import ScopeLint.Proofs.Checker.Uptake

/-! # Where the nodes of examples stand

The nodes of an example are moved by the line before its docstring and by the line and the indent of
the example in it. For a docstring of the tree of the check, that takes them to where they stand in the
file. A docstring in an example has itself been moved by then; its examples are moved by the shift of
the outer example and by the line of the moved docstring, which has that shift in it already. -/
namespace ScopeLint

variable {cfg : Setup} {s t : State} {next : Nat} {xs : List Excerpt}

namespace State

/-- Two states with the same nodes in the same places, the second with the longer record. -/
structure Abides (s t : State) : Prop where
  marks_eq : t.marks = s.marks
  moved_eq : t.moved = s.moved
  nextNode_eq : t.nextNode = s.nextNode
  history : s.history ⊆ t.history

variable {u : State}

theorem Abides.refl (s : State) : s.Abides s := ⟨rfl, rfl, rfl, List.Subset.refl _⟩

theorem Abides.trans (h : s.Abides t) (k : t.Abides u) : s.Abides u :=
  ⟨k.marks_eq.trans h.marks_eq, k.moved_eq.trans h.moved_eq, k.nextNode_eq.trans h.nextNode_eq,
    List.Subset.trans h.history k.history⟩

theorem Says.abides {kinds : List Kind} (h : s.Says kinds t) : s.Abides t :=
  ⟨h.alike.marks_eq, h.moved_eq, h.alike.nextNode_eq, h.history_subset⟩

theorem Leaves.abides (hs : s.Leaves cfg next xs) (h : s.Abides t) : t.Leaves cfg next xs :=
  ⟨hs.toFiles.of_eq h.nextNode_eq h.marks_eq h.moved_eq, hs.reports.mono h.history⟩

end State

/-- The end of a step that moves and marks no node, also if it fails. -/
def Ending.abides : Ending := ⟨State.Abides, State.Abides, .refl, .refl, .trans, .trans⟩

namespace Check

variable {visit : Visit}

theorem Speaks.abides {α : Type} {kinds : List Kind} {act : Check α} (h : Speaks kinds act) :
    Ends .abides act :=
  ends_of (fun _ _ _ ha => (h.ok ha).abides) fun _ _ _ ha => (h.fail ha).abides

theorem abides_runEntries {q : Queue} {i : Nat} {ds : List Deferred}
    (hds : ∀ d ∈ ds, d.task.isVerdict = true) : Ends .abides (runEntries cfg visit q i ds) := by
  induction ds generalizing i with
  | nil => exact ends_pure _
  | cons d rest ih =>
    obtain ⟨hd, hrest⟩ := List.forall_mem_cons.mp hds
    have hresume : Ends .abides (modify fun s : State =>
        { s with stack := d.stack, shift := d.shift, borrowed := some (q, i) } : Check Unit) :=
      ends_modify fun s => ⟨rfl, rfl, rfl, List.Subset.refl _⟩
    exact hresume.bind fun _ => (speaks_verdict hd).abides.bind fun _ => ih hrest

/-- All verdicts are given in one round, as they put nothing off. -/
theorem abides_drain {entries : Array Deferred} (hq : s.assignments = some entries)
    (hds : ∀ d ∈ entries.toList, d.task.isVerdict = true) :
    EndsAt .abides (drainWith cfg visit .assignments) s := by
  refine (ends_get s).bind fun r t hget => ?_
  cases hget
  have hqueue : s.queue .assignments = some entries := hq
  rw [EndsAt, Lands, drainWithin_apply hqueue, List.drop_zero]
  generalize rounds cfg ((s.queue .assignments).getD #[]).toList = fuel
  by_cases hempty : entries.toList = []
  · rw [if_pos hempty]
    exact .refl s
  rw [if_neg hempty]
  cases fuel with
  | zero => exact .refl s
  | succ fuel =>
    have hround : EndsAt .abides (do
        runEntries cfg visit .assignments 0 entries.toList
        drainWithin cfg visit .assignments fuel (0 + entries.toList.length)) s := by
      refine (abides_runEntries hds s).bind fun _ t ht => ?_
      have hleft : t.queue .assignments = some entries := (runEntries_eq_ok hds ht).2.1.1.trans hq
      rw [EndsAt, Lands, drainWithin_apply hleft, Nat.zero_add, List.drop_length, if_pos rfl]
      exact .refl t
    exact hround

theorem abides_popScope : Ends .abides popScope := by
  refine ends_of (fun s _ t h => ?_) fun s e t h => ?_
  · obtain ⟨id, rest, -, rfl⟩ := popScope_eq_ok h
    exact ⟨rfl, rfl, rfl, List.Subset.refl _⟩
  · obtain rfl := popScope_eq_error h
    exact .refl _

theorem abides_reportRemarks (cfg : Setup) : Ends .abides (reportRemarks cfg) := by
  unfold reportRemarks
  split
  · exact ends_pure _
  · refine ends_forM fun said _ => (ends_lift said).bind fun remarks => ends_forM fun r _ => ?_
    exact (speaks_reportWith cfg (List.mem_singleton.mpr rfl) r.args r.named).abides

/-- What a run does after the walk and the work that the walk puts off. -/
def closing (cfg : Setup) : Check Unit := do
  modify fun s => { s with functions := none }
  drain cfg .assignments
  modify fun s => { s with assignments := none, stack := s.stack.getLast?.toList }
  popScope
  judgeDead cfg
  reportRemarks cfg

theorem run_eq_closing (cfg : Setup) : run cfg = (do explore cfg; closing cfg) := by
  simp [run, passes, explore, closing, drain]

theorem abides_closing (cfg : Setup) (h : s.Pending) : EndsAt .abides (closing cfg) s := by
  obtain ⟨entries, hentries, hverdicts, -⟩ := h.verdicts
  have hfunctions : Ends .abides
      (modify fun s : State => { s with functions := none } : Check Unit) :=
    ends_modify fun s => ⟨rfl, rfl, rfl, List.Subset.refl _⟩
  have hassignments : Ends .abides (modify fun s : State =>
      { s with assignments := none, stack := s.stack.getLast?.toList } : Check Unit) :=
    ends_modify fun s => ⟨rfl, rfl, rfl, List.Subset.refl _⟩
  have hrest := hassignments.bind fun _ => abides_popScope.bind fun _ =>
    (Speaks.abides (told_judgeDead.ends cfg)).bind fun _ => abides_reportRemarks cfg
  refine (hfunctions s).bind fun _ t ht => ?_
  cases ht
  have hqueue : ({ s with functions := none } : State).assignments = some entries := hentries
  exact (abides_drain hqueue hverdicts).bind fun _ t _ => hrest t

/-- However a run ends, no node has been moved twice, and all examples that have been taken up are
where they have been moved to. -/
theorem leaves_ended (hnum : cfg.Numbered next) :
    (ended cfg next).movedIds.Nodup ∧ ∃ xs, (ended cfg next).Leaves cfg next xs ∧
      ∀ t, run cfg (State.initial next) = .ok () t →
        ∀ n, .doctests n ∈ (cfg.account t.dispatched).2 → n.TakenUp xs := by
  cases hexplore : explore cfg (State.initial next) with
  | error e s =>
    have hrun : run cfg (State.initial next) = .error e s := by
      rw [run_eq_closing, bind_apply, hexplore]
    obtain ⟨xs, hs⟩ := (shelves_explore hnum).fail hexplore
    have hended : ended cfg next = s := by rw [ended, after, hrun]
    rw [hended]
    refine ⟨(balanced_explore hnum).fail hexplore, xs, hs, fun t ht => ?_⟩
    cases hrun.symm.trans ht
  | ok _ s =>
    obtain ⟨xs, hs, htaken⟩ := (shelves_explore hnum).ok hexplore
    have habides : s.Abides (ended cfg next) := by
      have hclosing := abides_closing cfg (pending_of_explore hexplore)
      have hrun : run cfg (State.initial next) = closing cfg s := by
        rw [run_eq_closing, bind_apply, hexplore]
      rw [ended, after, hrun]
      exact hclosing.after
    have hmoved : (ended cfg next).movedIds = s.movedIds := by
      rw [State.movedIds, habides.moved_eq, State.movedIds]
    have hnodup := ((balanced_explore hnum).ok hexplore).nodup_movedIds
    refine ⟨hmoved ▸ hnodup, xs, hs.leaves.abides habides, ?_⟩
    intro t ht n hn
    have hended : ended cfg next = t := by rw [ended, after, ht]
    have hmarks : t.dispatched = s.dispatched := by
      rw [State.dispatched, ← hended, habides.marks_eq, State.dispatched]
    exact htaken n (hmarks ▸ hn)

end Check

/-- Where an example stands when its definition has been moved by so many lines and columns, and
`above` is the line before the docstring. -/
structure Excerpt.InPlace (t : State) (x : Excerpt) (down right above : Int) : Prop where
  shift : x.shift = .ok (.of (down + above + x.item.line) (right + x.item.indent + 4))
  nodes : ∀ m ∈ x.nodes, (t.mark? m).isSome = true → ∀ line column,
    m.position = some (.of line column) → t.position? m =
      some (.of (down + above + x.item.line + line) (right + x.item.indent + 4 + column))
  report : ∀ message line column text,
    x.outcome = .syntaxError message (.int line) (.int column) text →
      ∃ d, d.IsOf x.definition ∧ .reported .doctestSyntaxError
        [d, .list [.int (above + x.item.line + line), .int (x.item.indent + 4 + column)]] ∈ t.history

section Places

variable {x : Excerpt} {down right above : Int}

theorem State.lineAbove_int (line : Int) (breaks : Nat) :
    State.lineAbove (.int line) breaks = .ok (.int (line - breaks - 1)) := by
  have hsum : line + -(breaks : Int) + -1 = line - breaks - 1 := by omega
  rw [← hsum]
  rfl

theorem Shift.move_of (line column : Int) :
    (Shift.of down right).move (.of line column) = .ok (.of (down + line) (right + column)) := by
  rw [Int.add_comm down, Int.add_comm right]
  rfl

theorem Excerpt.shift_of (hbase : x.base = .of down right) (hline : x.line = .int above) :
    x.shift = .ok (.of (down + above + x.item.line) (right + x.item.indent + 4)) := by
  rw [Excerpt.shift, hbase, hline]
  rfl

theorem Check.doctestPosition_int (above line column : Int) (e : Example) :
    Check.doctestPosition (.int above) e (.int line) (.int column) =
      .ok (.list [.int (above + e.line + line), .int (e.indent + 4 + column)]) := by
  by_cases hzero : column = 0
  · subst hzero
    rfl
  · have htruthy : (Datum.int column).truthy = true := by simp [Datum.truthy, hzero]
    simp only [Check.doctestPosition, htruthy, if_true]
    rfl

/-- The line that an example is counted from is the one before its docstring, where that stands. -/
theorem NodeOf.DocLine.eq_int {n : Node} {move : Position → Except Fault Position} {above : Datum}
    (h : n.DocLine move above) {doc : Node} {line column : Int} {text : String}
    (hdoc : n.docNode? = some doc) (hposition : doc.position = some (.of line column))
    (htext : n.docText = some text)
    (hmove : move (.of line column) = .ok (.of (down + line) (right + column))) :
    above = .int (down + line - text.toList.count '\n' - 1) := by
  obtain ⟨doc', p, p', text', hdoc', hp, hp', htext', habove⟩ := h
  cases hdoc.symm.trans hdoc'
  cases hposition.symm.trans hp
  cases htext.symm.trans htext'
  cases hmove.symm.trans hp'
  have hint := State.lineAbove_int (down + line) (text.toList.count '\n')
  exact Except.ok.inj (habove.symm.trans hint)

theorem State.Leaves.inPlace (h : t.Leaves cfg next xs) (hnodup : t.movedIds.Nodup) (hx : x ∈ xs)
    (hbase : x.base = .of down right) (hline : x.line = .int above) :
    x.InPlace t down right above where
  shift := Excerpt.shift_of hbase hline
  nodes := by
    intro m hm hmark line column hposition
    rcases h.placed x hx m hm hmark _ hposition rfl with hmany | ⟨own, p, hown, hmove, hlookup⟩
    · exact absurd (List.nodup_iff_count_le_one.mp hnodup m.id) (Nat.not_le_of_lt hmany)
    · cases (Excerpt.shift_of hbase hline).symm.trans hown
      cases (Shift.move_of line column).symm.trans hmove
      rw [State.position?, hlookup]
  report := by
    intro message line column text houtcome
    obtain ⟨d, position, hd, hposition, hmem⟩ := h.reports x hx message _ _ text houtcome
    rw [hline, Check.doctestPosition_int] at hposition
    cases hposition
    exact ⟨d, hd, hmem⟩

end Places

/-- The doctests of a definition are put off where its docstring is checked for examples. -/
theorem Setup.doctests_mem_account {n : Node} {ns : Multiset Node} (hn : n ∈ ns)
    (h : cfg.checksDoctests n = true) : .doctests n ∈ (cfg.account ns).2 := by
  have hown : .doctests n ∈ (cfg.nodeAccount n).2 := by
    simp only [checksDoctests, goesTo_definition, Bool.and_eq_true] at h
    obtain ⟨⟨hon, hrule⟩, -⟩ := h
    rw [nodeAccount]
    cases hof : Rule.of? n.kind with
    | none => simp [hof] at hrule
    | some rule => cases rule <;> simp [hof, ruleAccount, doctestsOf, hon] at hrule ⊢
  obtain ⟨rest, rfl⟩ := Multiset.exists_cons_of_mem hn
  rw [← Multiset.singleton_add, account_add, account_singleton, Prod.snd_add]
  exact Multiset.mem_add.mpr (.inl hown)

namespace Check

/-- However a run ends, the nodes that it has visited and that are not of the tree are of examples, and
a run that gets through has taken up every example of the definitions that it has come to. For a
docstring of the tree, each node at `(line, column)` of an example that has been visited stands so much
below the line before the docstring and the line of the example, and an error in reading the example at
`(line, column)` is reported there too. For a docstring in another example, the line before it has the
shift of the outer example in it already, and the nodes are moved by that shift once more, while errors
are reported without it. -/
theorem examples_stand_below_docstring (cfg : Setup) (next : Nat) (hnum : cfg.Numbered next) :
    ∃ xs : List Excerpt,
      (∀ e ∈ (ended cfg next).marks, next ≤ e.1 → ∃ x ∈ xs, ∃ m ∈ x.nodes, m.id = e.1) ∧
      (∀ t, run cfg (State.initial next) = .ok () t →
        ∀ n ∈ t.dispatched, cfg.checksDoctests n = true → n.TakenUp xs) ∧
      ∀ x ∈ xs, x.IsFrom cfg ∧
        ∀ doc line column text, x.definition.docNode? = some doc →
          doc.position = some (.of line column) → x.definition.docText = some text →
          (x.definition ∈ cfg.root.nodes →
            x.InPlace (ended cfg next) 0 0 (line - text.toList.count '\n' - 1)) ∧
          (x.definition ∉ cfg.root.nodes → ∃ y ∈ xs, x.definition ∈ y.nodes ∧
            ∀ down right, y.shift = .ok (.of down right) →
              x.InPlace (ended cfg next) down right
                (down + line - text.toList.count '\n' - 1)) := by
  obtain ⟨hnodup, xs, hleaves, htaken⟩ := leaves_ended hnum
  refine ⟨xs, hleaves.covered, fun t ht n hn hchecks => ?_, fun x hx => ?_⟩
  · exact htaken t ht n (cfg.doctests_mem_account (Multiset.mem_coe.mpr hn) hchecks)
  obtain ⟨hfrom, hstems⟩ := hleaves.origin x hx
  refine ⟨hfrom, fun doc line column text hdoc hposition htext => ?_⟩
  rcases hstems with ⟨hmem, hbase, hline⟩ | ⟨hline, y, hy, hshift, hmem⟩
  · refine ⟨fun _ => ?_, fun hnot => absurd hmem hnot⟩
    have hstays : (.ok (.of line column) : Except Fault Position) =
        .ok (.of (0 + line) (0 + column)) := by simp
    have habove := hline.eq_int hdoc hposition htext hstays
    rw [Int.zero_add] at habove
    exact hleaves.inPlace hnodup hx hbase habove
  · refine ⟨fun hroot => ?_, fun _ => ⟨y, hy, hmem, fun down right hown => ?_⟩⟩
    · have hlow := hnum.bounded x.definition hroot
      have hhigh := (hleaves.numbered y hy x.definition hmem).1
      omega
    · have hbase : x.base = .of down right := Except.ok.inj (hshift.symm.trans hown)
      rw [hbase] at hline
      exact hleaves.inPlace hnodup hx hbase
        (hline.eq_int hdoc hposition htext (Shift.move_of line column))

end Check

namespace Sample

def useOfX : Node := ⟨0, "Module", none, [("body", .list [
  .node ⟨0, "Expr", some (.of 1 0), [("value", name 1 "x" "Load")]⟩])]⟩

/-- A docstring with an example that can be read and one that cannot. -/
def halfRead : Setup :=
  { setup [function 1 "f" [docstring 4 0 ">>> x\n>>> 1 +\n"]] with
    doctests := true
    compile := .ofTable [("x\n", .tree useOfX),
      ("1 +\n", .syntaxError (.text "invalid syntax") (.int 1) (.int 3) (.text "1 +"))] }

def documentedFunction : Node := (halfRead.root.nodes[1]?).getD halfRead.root

def innerText : String := "\n    >>> x\n    "

def outerTree : Node :=
  ⟨0, "Module", none, [("body", .list [function 1 "g" [docstring 4 4 innerText]])]⟩

/-- An example that defines a function with an example of its own. -/
def nestedExample : Setup :=
  { setup [function 1 "f" [docstring 7 4
      "\n    >>> def g():\n    ...     \"\"\"\n    ...     >>> x\n    ...     \"\"\"\n    "]] with
    doctests := true
    compile := .ofTable [("def g():\n    \"\"\"\n    >>> x\n    \"\"\"\n", .tree outerTree),
      ("x\n", .tree useOfX)] }

end Sample

namespace Check

open Sample

/-- Both examples are counted from line 1, and the error is on the last line of the docstring. -/
theorem examples_stand_below_docstring_half_read :
    ∃ x y : Excerpt, x.item = ⟨"x\n", 0, 0⟩ ∧ y.item = ⟨"1 +\n", 1, 0⟩ ∧
      x.InPlace (ended halfRead halfRead.root.size) 0 0 1 ∧
      y.InPlace (ended halfRead halfRead.root.size) 0 0 1 ∧
      ∃ d, .reported .doctestSyntaxError [d, .list [.int 3, .int 7]] ∈
        (ended halfRead halfRead.root.size).history := by
  have hnum : halfRead.Numbered halfRead.root.size := ⟨by decide +kernel, by decide +kernel⟩
  have hends : endsWith halfRead (fun _ => true) = true := by decide +kernel
  obtain ⟨t, hrun, -⟩ := endsWith_eq_true hends
  obtain ⟨xs, -, htaken, hall⟩ := examples_stand_below_docstring halfRead halfRead.root.size hnum
  have hf : documentedFunction ∈ halfRead.root.nodes := List.mem_of_getElem? (i := 1) rfl
  have hdispatched : documentedFunction ∈ t.dispatched := by
    refine (mem_dispatched_iff_visits hnum hrun hf).mpr
      ⟨⟨.module, halfRead.root, documentedFunction⟩, .start ?_, rfl⟩
    exact List.mem_of_getElem? (i := 0) rfl
  have hexamples : Doctest.examples? ">>> x\n>>> 1 +\n" =
      some [⟨"x\n", 0, 0⟩, ⟨"1 +\n", 1, 0⟩] := by decide +kernel
  have hup := htaken t hrun documentedFunction hdispatched (by decide +kernel) _ _ rfl hexamples
  have hplace (x : Excerpt) (hx : x ∈ xs) (hof : x.definition = documentedFunction) :
      x.InPlace (ended halfRead halfRead.root.size) 0 0 1 := by
    rw [← hof] at hf
    exact ((hall x hx).2 _ 4 0 ">>> x\n>>> 1 +\n" (by rw [hof]; rfl) rfl (by rw [hof]; rfl)).1 hf
  obtain ⟨x, hx, hxof, hxitem⟩ := hup ⟨"x\n", 0, 0⟩ (by simp)
  obtain ⟨y, hy, hyof, hyitem⟩ := hup ⟨"1 +\n", 1, 0⟩ (by simp)
  refine ⟨x, y, hxitem, hyitem, hplace x hx hxof, hplace y hy hyof, ?_⟩
  obtain ⟨next, houtcome⟩ := (hall y hy).1.outcome
  rw [hyitem] at houtcome
  obtain ⟨d, -, hreport⟩ := (hplace y hy hyof).report _ 1 3 _ houtcome
  rw [hyitem] at hreport
  exact ⟨d, hreport⟩

/-- The docstring of the inner function ends on line 6, so that line 3 is the one before it and its
example is on line 5. The name in that example ends up on line 7. -/
theorem nested_example_displaced :
    Doctest.examples? innerText = some [⟨"x\n", 1, 4⟩] ∧ innerText.toList.count '\n' = 2 ∧
    ∃ t, run nestedExample (State.initial nestedExample.root.size) = .ok () t ∧
      (∀ m ∈ (outerTree.numbered nestedExample.root.size).1.nodes, m.kind = "Str" →
        (t.position? m).bind (·.line.integer?) = some 6) ∧
      ∃ m ∈ (useOfX.numbered (outerTree.numbered nestedExample.root.size).2).1.nodes,
        m.position.bind (·.line.integer?) = some 1 ∧
          (t.position? m).bind (·.line.integer?) = some 7 := by
  have hends : endsWith nestedExample (fun t =>
      (outerTree.numbered nestedExample.root.size).1.nodes.all (fun m => m.kind != "Str" ||
        (t.position? m).bind (·.line.integer?) == some 6) &&
      (useOfX.numbered (outerTree.numbered nestedExample.root.size).2).1.nodes.any (fun m =>
        m.position.bind (·.line.integer?) == some 1 &&
          (t.position? m).bind (·.line.integer?) == some 7)) = true := by decide +kernel
  obtain ⟨t, hrun, htest⟩ := endsWith_eq_true hends
  refine ⟨by decide +kernel, by decide +kernel, t, hrun, ?_⟩
  simpa [← imp_iff_not_or] using htest

end Check

end ScopeLint
