import ScopeLint.Proofs.Checker.Docstrings

/-! # The examples that a run takes up

Each example of a docstring is taken up with a shift of its own, and the nodes of its tree are moved by
that shift when they are visited. A list of the examples that have been taken up, the trees with the
numbers that they got, tells where all nodes are that are not of the tree of the check. -/
namespace ScopeLint

open List Check

variable {cfg : Setup} {m n : Node} {next : Nat} {s t : State}

/-- The line before the docstring of a definition whose nodes are moved. -/
def NodeOf.DocLine (n : Node) (move : Position → Except Fault Position) (line : Datum) : Prop :=
  ∃ doc p p' text, n.docNode? = some doc ∧ doc.position = some p ∧ move p = .ok p' ∧
    n.docText = some text ∧ State.lineAbove p'.line (text.toList.count '\n') = .ok line

def Outcome.numbered (next : Nat) : Outcome → Outcome
  | .tree n => .tree (n.numbered next).1
  | other => other

/-- An example that has been taken up: the definition whose docstring it is in, the shift of that
definition, the line that is taken for the one before the docstring, and what the compiler has made of
the example. -/
structure Excerpt where
  definition : Node
  base : Shift
  line : Datum
  item : Example
  outcome : Outcome

namespace Excerpt

def nodes (x : Excerpt) : List Node :=
  match x.outcome with
  | .tree tree => tree.nodes
  | _ => []

def shift (x : Excerpt) : Except Fault Shift := exampleShift x.base x.line x.item

/-- The example is one of the docstring and has been compiled. -/
structure IsFrom (cfg : Setup) (x : Excerpt) : Prop where
  item : ∃ text examples, x.definition.docText = some text ∧
    Doctest.examples? text = some examples ∧ x.item ∈ examples
  outcome : ∃ next, x.outcome = (cfg.compile x.item.source).numbered next

/-- The definition is one of the tree of the check, which is not moved, or one of an example that has
been taken up before, whose shift it has. The line is the one before the docstring where that stands. -/
def Stems (cfg : Setup) (xs : List Excerpt) (x : Excerpt) : Prop :=
  (x.definition ∈ cfg.root.nodes ∧ x.base = .of 0 0 ∧ x.definition.DocLine .ok x.line) ∨
    (x.definition.DocLine x.base.move x.line ∧
      ∃ y ∈ xs, y.shift = .ok x.base ∧ x.definition ∈ y.nodes)

variable {x : Excerpt}

theorem IsFrom.eq_of_id (h : x.IsFrom cfg) {m k : Node} (hm : m ∈ x.nodes) (hk : k ∈ x.nodes)
    (hid : m.id = k.id) : m = k := by
  obtain ⟨next, houtcome⟩ := h.outcome
  generalize cfg.compile x.item.source = compiled at houtcome
  cases compiled with
  | tree tree =>
    have hdistinct : (tree.numbered next).1.Distinct := (NodeOf.numberedFrom next tree).nodup
    simp only [nodes, houtcome, Outcome.numbered] at hm hk
    exact hdistinct.eq_of_id hm hk hid
  | syntaxError | failure => simp [nodes, houtcome, Outcome.numbered] at hm

theorem Stems.mono {xs : List Excerpt} (h : x.Stems cfg xs) (more : List Excerpt) :
    x.Stems cfg (more ++ xs) :=
  h.imp_right fun ⟨hline, y, hy, hrest⟩ => ⟨hline, y, mem_append_right _ hy, hrest⟩

end Excerpt

/-- The node is of the tree of the check, where no shift is in force, or of an example, where the shift
of the example is. -/
def Setup.Home (cfg : Setup) (xs : List Excerpt) (shift : Option Shift) (n : Node) : Prop :=
  (shift = none ∧ n ∈ cfg.root.nodes) ∨
    ∃ x ∈ xs, n ∈ x.nodes ∧ ∃ own, x.shift = .ok own ∧ shift = some own

section Homes

variable {xs : List Excerpt} {shift : Option Shift}

theorem Setup.Home.part (h : cfg.Home xs shift n) (hm : m ∈ n.nodes) : cfg.Home xs shift m := by
  rcases h with ⟨hnone, hn⟩ | ⟨x, hx, hn, hown⟩
  · exact .inl ⟨hnone, (NodeOf.sublist_of_mem_nodes cfg.root hn).subset hm⟩
  · refine .inr ⟨x, hx, ?_, hown⟩
    unfold Excerpt.nodes at hn ⊢
    split at hn
    · exact (NodeOf.sublist_of_mem_nodes _ hn).subset hm
    · cases hn

theorem Setup.Home.handed (h : cfg.Home xs shift n) (hm : .node m ∈ n.handed cfg.dialect) :
    cfg.Home xs shift m :=
  h.part (NodeOf.mem_nodes_of_mem_parts (mem_append_left _ hm) m.self_mem_nodes)

theorem Setup.Home.mono (h : cfg.Home xs shift n) (more : List Excerpt) :
    cfg.Home (more ++ xs) shift n :=
  h.imp_right fun ⟨x, hx, hrest⟩ => ⟨x, mem_append_right _ hx, hrest⟩

end Homes

def Task.owner? : Task → Option Node
  | .body n _ | .doctests n => some n
  | .assignments | .returns _ => none

namespace State

/-- The node has been moved by the shift of its example, unless it has been moved more than once. -/
def MovedWith (s : State) (x : Excerpt) (m : Node) : Prop :=
  ∀ p, m.position = some p → p.line.isNull = false → 1 < s.movedIds.count m.id ∨
    ∃ own p', x.shift = .ok own ∧ own.move p = .ok p' ∧ s.moved.lookup m.id = some p'

/-- Every node that has been visited and is not of the tree of the check is of one of the examples, and
has been moved with it. -/
structure Files (cfg : Setup) (next : Nat) (xs : List Excerpt) (s : State) : Prop where
  free : next ≤ s.nextNode
  origin : ∀ x ∈ xs, x.IsFrom cfg ∧ x.Stems cfg xs
  numbered : ∀ x ∈ xs, ∀ m ∈ x.nodes, next ≤ m.id ∧ m.id < s.nextNode
  apart : ∀ x ∈ xs, ∀ y ∈ xs, ∀ m ∈ x.nodes, ∀ k ∈ y.nodes, m.id = k.id → x = y
  covered : ∀ e ∈ s.marks, next ≤ e.1 → ∃ x ∈ xs, ∃ m ∈ x.nodes, m.id = e.1
  placed : ∀ x ∈ xs, ∀ m ∈ x.nodes, (s.mark? m).isSome = true → s.MovedWith x m

/-- Where nothing has failed, only nodes that have been visited have been moved, none of them of the
tree of the check, and the put-off work has the shifts that its nodes need. -/
structure Filed (cfg : Setup) (next : Nat) (xs : List Excerpt) (s : State) : Prop
    extends Files cfg next xs s where
  unmoved : ∀ id ∈ s.movedIds, next ≤ id
  seen : ∀ id ∈ s.movedIds, (s.marks.lookup id).isSome = true
  lined : ∀ x ∈ xs, ∀ m ∈ x.nodes, m.id ∈ s.movedIds →
    ∃ p, m.position = some p ∧ p.line.isNull = false
  tasks : ∀ q i d n, s.Entry q i d → d.task.owner? = some n → cfg.Home xs d.shift n

variable {xs : List Excerpt} {id : Nat} {p : Position} {x : Excerpt}

theorem mem_movedIds_of_lookup (h : s.moved.lookup id = some p) : id ∈ s.movedIds := by
  obtain ⟨before, after, hmoved, -⟩ := lookup_eq_some_iff.mp h
  simp [movedIds, hmoved]

theorem lookup_of_notMem_movedIds (h : id ∉ s.movedIds) : s.moved.lookup id = none := by
  cases hl : s.moved.lookup id with
  | none => rfl
  | some p => exact absurd (mem_movedIds_of_lookup hl) h

theorem MovedWith.cons (h : s.MovedWith x m) (hmoved : t.moved = (n.id, p) :: s.moved) :
    t.MovedWith x m := by
  intro q hq hnull
  have hids : t.movedIds = n.id :: s.movedIds := by simp [movedIds, hmoved]
  rcases h q hq hnull with hmany | ⟨own, q', hown, hmove, hlookup⟩
  · left
    rw [hids, count_cons]
    omega
  · by_cases hid : n.id = m.id
    · left
      have hcount := count_pos_iff.mpr (mem_movedIds_of_lookup hlookup)
      rw [hids, count_cons, hid]
      simp only [beq_self_eq_true, if_true]
      omega
    · right
      refine ⟨own, q', hown, hmove, ?_⟩
      have hne : (m.id == n.id) = false := by simpa using Ne.symm hid
      rw [hmoved, lookup_cons, hne]
      exact hlookup

theorem MovedWith.of_eq (h : s.MovedWith x m) (hmoved : t.moved = s.moved) : t.MovedWith x m := by
  unfold MovedWith movedIds at h ⊢
  rwa [hmoved]

theorem Files.of_touched (h : s.Files cfg next xs) (hnext : t.nextNode = s.nextNode)
    (hmarks : t.marks = s.marks)
    (hmoved : t.moved = s.moved ∨ ∃ p, t.moved = (n.id, p) :: s.moved) : t.Files cfg next xs where
  free := hnext ▸ h.free
  origin := h.origin
  numbered := hnext ▸ h.numbered
  apart := h.apart
  covered := hmarks ▸ h.covered
  placed := by
    intro x hx m hm hmark
    rw [mark?, hmarks] at hmark
    have hplaced := h.placed x hx m hm hmark
    rcases hmoved with hsame | ⟨p, hcons⟩
    · exact hplaced.of_eq hsame
    · exact hplaced.cons hcons

theorem Files.of_eq (h : s.Files cfg next xs) (hnext : t.nextNode = s.nextNode)
    (hmarks : t.marks = s.marks) (hmoved : t.moved = s.moved) : t.Files cfg next xs :=
  h.of_touched (n := cfg.root) hnext hmarks (.inl hmoved)

/-- Nothing but the numbers, the marks, the moves and the queues counts. -/
theorem Filed.of_eq (h : s.Filed cfg next xs) (hnext : t.nextNode = s.nextNode)
    (hmarks : t.marks = s.marks) (hmoved : t.moved = s.moved)
    (hentry : ∀ q i d n, t.Entry q i d → d.task.owner? = some n → s.Entry q i d) :
    t.Filed cfg next xs where
  toFiles := h.toFiles.of_eq hnext hmarks hmoved
  unmoved := by
    rw [movedIds, hmoved]
    exact h.unmoved
  seen := by
    rw [movedIds, hmoved, hmarks]
    exact h.seen
  lined := by
    rw [movedIds, hmoved]
    exact h.lined
  tasks := fun q i d n hd hn => h.tasks q i d n (hentry q i d n hd hn) hn

theorem Fixed.filed (h : s.Fixed t) (hs : s.Filed cfg next xs) : t.Filed cfg next xs :=
  hs.of_eq h.nextNode_eq h.marks_eq h.moved_eq fun q i d n hd _ => by rwa [Entry, ← h.queue_eq q]

theorem Filed.withTask (h : s.Filed cfg next xs) {entries : Array Deferred} {q : Queue}
    (hq : s.queue q = some entries) {task : Task} (hof : task.IsOf n)
    (hhome : cfg.Home xs s.shift n) : (s.withTask q entries task).Filed cfg next xs where
  toFiles := by
    refine h.toFiles.of_eq ?_ ?_ ?_
    · cases q <;> rfl
    · cases q <;> rfl
    · cases q <;> rfl
  unmoved := by cases q <;> exact h.unmoved
  seen := by cases q <;> exact h.seen
  lined := by cases q <;> exact h.lined
  tasks := by
    intro other i d m hd hm
    rcases (entry_withTask hq).mp hd with hd | ⟨-, -, rfl⟩
    · exact h.tasks other i d m hd hm
    · obtain rfl : m = n := by
        cases task with
        | body k names => exact (Option.some.inj hm).symm.trans hof.1
        | doctests k => exact (Option.some.inj hm).symm.trans hof
        | assignments | returns => exact hof.elim
      exact hhome

theorem Filed.movedWith_entered (h : s.Filed cfg next xs) (hshifts : s.Shifts m t.moved)
    (hx : x ∈ xs) (hm : m ∈ x.nodes) (hown : ∃ own, x.shift = .ok own ∧ s.shift = some own) :
    t.MovedWith x m := by
  obtain ⟨own, hown, hshift⟩ := hown
  by_cases hmem : m.id ∈ s.movedIds
  · have hbefore := h.placed x hx m hm (h.seen m.id hmem)
    generalize hmoved : t.moved = moved at hshifts
    cases hshifts with
    | stays => exact hbefore.of_eq hmoved
    | moves => exact hbefore.cons hmoved
  · intro p hp hnull
    right
    have hposition : s.position? m = some p := by
      rw [position?, lookup_of_notMem_movedIds hmem]
      exact hp
    generalize hmoved : t.moved = moved at hshifts
    cases hshifts with
    | stays hstays => simp [hstays own p hshift hposition] at hnull
    | @moves other q q' hother hq _ hmove =>
      cases hshift.symm.trans hother
      cases hposition.symm.trans hq
      exact ⟨own, q', hown, hmove, by simp⟩

section Entering

variable (hnum : cfg.Numbered next)

include hnum

theorem Files.eq_of_home (h : s.Files cfg next xs) (hx : x ∈ xs) {k : Node} (hk : k ∈ x.nodes)
    {shift : Option Shift} (hhome : cfg.Home xs shift m) (hid : k.id = m.id) :
    k = m ∧ ∃ own, x.shift = .ok own ∧ shift = some own := by
  rcases hhome with ⟨-, hm⟩ | ⟨y, hy, hm, hown⟩
  · have hlt := hnum.bounded m hm
    have hge := (h.numbered x hx k hk).1
    omega
  · obtain rfl := h.apart x hx y hy k hk m hm hid
    exact ⟨(h.origin x hx).1.eq_of_id hk hm hid, hown⟩

theorem Filed.entering {u : State} (h : s.Filed cfg next xs) (hhome : cfg.Home xs s.shift m)
    (hstill : s.Still u) (hshifts : s.Shifts m u.moved) (n : Node) :
    (u.entered m n).Filed cfg next xs where
  free := hstill.nextNode_eq ▸ h.free
  origin := h.origin
  numbered := hstill.nextNode_eq ▸ h.numbered
  apart := h.apart
  covered := by
    rw [State.entered, hstill.marks_eq]
    refine forall_mem_cons.mpr ⟨fun hge => ?_, h.covered⟩
    rcases hhome with ⟨-, hm⟩ | ⟨x, hx, hm, -⟩
    · exact absurd (hnum.bounded m hm) (Nat.not_lt_of_le hge)
    · exact ⟨x, hx, m, hm, rfl⟩
  placed := by
    intro x hx k hk hmark
    by_cases hid : k.id = m.id
    · obtain ⟨rfl, hown⟩ := h.eq_of_home hnum hx hk hhome hid
      exact h.movedWith_entered hshifts hx hk hown
    · have hne : (k.id == m.id) = false := by simpa using hid
      have hbefore : (s.mark? k).isSome = true := by
        simpa only [mark?, State.entered, lookup_cons, hne, hstill.marks_eq] using hmark
      have hplaced := h.placed x hx k hk hbefore
      generalize hmoved : u.moved = moved at hshifts
      cases hshifts with
      | stays => exact hplaced.of_eq hmoved
      | moves => exact hplaced.cons hmoved
  unmoved := by
    have hids : (u.entered m n).movedIds = u.moved.map (·.1) := rfl
    rw [hids]
    generalize u.moved = moved at hshifts
    cases hshifts with
    | stays => exact h.unmoved
    | moves hshift =>
      refine forall_mem_cons.mpr ⟨?_, h.unmoved⟩
      rcases hhome with ⟨hnone, -⟩ | ⟨x, hx, hm, -⟩
      · cases hnone.symm.trans hshift
      · exact (h.numbered x hx m hm).1
  seen := by
    have hids : (u.entered m n).movedIds = u.moved.map (·.1) := rfl
    have hmarks (id : Nat) (hid : (s.marks.lookup id).isSome = true) :
        ((u.entered m n).marks.lookup id).isSome = true := by
      rw [State.entered, hstill.marks_eq, lookup_cons]
      split
      · rfl
      · exact hid
    rw [hids]
    generalize u.moved = moved at hshifts
    cases hshifts with
    | stays => exact fun id hid => hmarks id (h.seen id hid)
    | moves =>
      refine forall_mem_cons.mpr ⟨?_, fun id hid => hmarks id (h.seen id hid)⟩
      simp [State.entered]
  lined := by
    have hids : (u.entered m n).movedIds = u.moved.map (·.1) := rfl
    intro x hx k hk hmem
    rw [hids] at hmem
    by_cases hold : k.id ∈ s.movedIds
    · exact h.lined x hx k hk hold
    · generalize u.moved = moved at hshifts hmem
      cases hshifts with
      | stays => exact absurd hmem hold
      | @moves _ p _ _ hposition hnull =>
        have hid : k.id = m.id := (mem_cons.mp hmem).resolve_right hold
        obtain ⟨rfl, -⟩ := h.eq_of_home hnum hx hk hhome hid
        rw [position?, lookup_of_notMem_movedIds hold] at hposition
        exact ⟨p, hposition, hnull⟩
  tasks := by
    intro q i d k hd
    refine h.tasks q i d k ?_
    have hd : u.Entry q i d := by cases q <;> exact hd
    rwa [Entry, ← hstill.toAlike.queue_eq q]

end Entering

theorem Files.notMem_marks (h : s.Files cfg next xs) (hid : s.nextNode ≤ id) :
    s.marks.lookup id = none := by
  refine lookup_eq_none_iff.mpr fun e he => ?_
  have hne : id ≠ e.1 := by
    rintro rfl
    obtain ⟨x, hx, m, hm, heq⟩ := h.covered e he (Nat.le_trans h.free hid)
    have hlt := (h.numbered x hx m hm).2
    omega
  simpa using hne

theorem Filed.add (h : s.Filed cfg next xs) {x : Excerpt} (hfrom : x.IsFrom cfg)
    (hstems : x.Stems cfg xs) (hnext : s.nextNode ≤ t.nextNode)
    (hnew : ∀ m ∈ x.nodes, s.nextNode ≤ m.id ∧ m.id < t.nextNode) (hmarks : t.marks = s.marks)
    (hmoved : t.moved = s.moved) (hqueue : ∀ q, t.queue q = s.queue q) :
    t.Filed cfg next (x :: xs) where
  free := Nat.le_trans h.free hnext
  origin := by
    refine forall_mem_cons.mpr ⟨⟨hfrom, hstems.mono [x]⟩, fun y hy => ?_⟩
    exact ⟨(h.origin y hy).1, (h.origin y hy).2.mono [x]⟩
  numbered := by
    refine forall_mem_cons.mpr ⟨fun m hm => ?_, fun y hy m hm => ?_⟩
    · exact ⟨Nat.le_trans h.free (hnew m hm).1, (hnew m hm).2⟩
    · exact ⟨(h.numbered y hy m hm).1, Nat.lt_of_lt_of_le (h.numbered y hy m hm).2 hnext⟩
  apart := by
    have hapart (y : Excerpt) (hy : y ∈ xs) (m : Node) (hm : m ∈ x.nodes) (k : Node)
        (hk : k ∈ y.nodes) : m.id ≠ k.id := by
      have hge := (hnew m hm).1
      have hlt := (h.numbered y hy k hk).2
      omega
    intro y hy z hz m hm k hk hid
    rcases mem_cons.mp hy with rfl | hold
    · rcases mem_cons.mp hz with rfl | hother
      · rfl
      · exact absurd hid (hapart z hother m hm k hk)
    · rcases mem_cons.mp hz with rfl | hother
      · exact absurd hid.symm (hapart y hold k hk m hm)
      · exact h.apart y hold z hother m hm k hk hid
  covered := by
    intro e he hge
    rw [hmarks] at he
    obtain ⟨y, hy, hrest⟩ := h.covered e he hge
    exact ⟨y, mem_cons_of_mem _ hy, hrest⟩
  placed := by
    intro y hy m hm hmark
    rw [mark?, hmarks] at hmark
    rcases mem_cons.mp hy with rfl | hy
    · rw [h.notMem_marks (hnew m hm).1] at hmark
      cases hmark
    · exact (h.placed y hy m hm hmark).of_eq hmoved
  unmoved := by
    rw [movedIds, hmoved]
    exact h.unmoved
  seen := by
    rw [movedIds, hmoved, hmarks]
    exact h.seen
  lined := by
    rw [movedIds, hmoved]
    refine forall_mem_cons.mpr ⟨fun m hm hmem => ?_, h.lined⟩
    have hmark := h.seen m.id hmem
    rw [h.notMem_marks (hnew m hm).1] at hmark
    cases hmark
  tasks := by
    intro q i d n hd hn
    rw [Entry, hqueue q] at hd
    exact (h.tasks q i d n hd hn).mono [x]

theorem position?_of_unmoved (h : s.Filed cfg next xs) (hid : n.id < next) :
    s.position? n = n.position := by
  have hnot : n.id ∉ s.movedIds := fun hmem => absurd (h.unmoved n.id hmem) (Nat.not_le_of_lt hid)
  rw [position?, lookup_of_notMem_movedIds hnot]

end State

section Courses

variable {xs : List Excerpt} (hnum : cfg.Numbered next) {vs : List Value}

include hnum

theorem State.Filed.enterNode (hs : s.Filed cfg next xs) (hm : cfg.Home xs s.shift m)
    (h : Check.enterNode cfg m n s = .ok () t) : t.Filed cfg next xs ∧ cfg.Home xs t.shift m := by
  have hshifts := enterNode_shifts h
  obtain ⟨r, hstill, rfl⟩ := enterNode_eq_ok h
  refine ⟨hs.entering hnum hm hstill hshifts n, ?_⟩
  rwa [show (r.entered m n).shift = s.shift from hstill.shift_eq]

/-- A course through nodes that are at home moves each with its example. -/
theorem Course.filed (h : Course cfg n vs s t) (hn : cfg.Home xs s.shift n)
    (hvs : ∀ m, .node m ∈ vs → cfg.Home xs s.shift m) (hs : s.Filed cfg next xs) :
    t.Filed cfg next xs := by
  induction h with
  | done => exact hs
  | next hc _ ih ih' =>
    refine ih' ?_ ?_ (ih hn hvs hs)
    · rwa [hc.level.shift_eq]
    · rwa [hc.level.shift_eq]
  | act a _ h => exact ((a.run_steady cfg).ok h).filed hs
  | scope kind _ _ hp ih =>
    obtain ⟨id, rest, -, rfl⟩ := popScope_eq_ok hp
    have hopened := hs.of_eq (t := State.opened _ kind) rfl rfl rfl fun q i d _ hd _ => hd
    exact (ih hn hvs hopened).of_eq rfl rfl rfl fun q i d _ hd _ => by cases q <;> exact hd
  | guard names _ ih =>
    have hguarded := hs.of_eq (t := State.guarded _ names) rfl rfl rfl fun q i d _ hd _ => hd
    exact (ih hn hvs hguarded).of_eq rfl rfl rfl fun q i d _ hd _ => by cases q <;> exact hd
  | task task hof hd =>
    obtain ⟨entries, hq, rfl⟩ := defer_eq_ok hd
    exact hs.withTask hq hof hn
  | @node n vs s t u v m hm he _ ht ih =>
    obtain ⟨hentered, hhome⟩ := hs.enterNode hnum (hvs m hm) he
    have hend := ih hhome (fun k hk => hhome.handed hk) hentered
    have hrisen := hend.of_eq (t := u.risen) rfl rfl rfl fun q i d _ hd _ => by cases q <;> exact hd
    exact ((told_traceLine _).ok ht).fixed.filed hrisen

theorem Cut.files (h : Cut cfg n vs s t) (hn : cfg.Home xs s.shift n)
    (hvs : ∀ m, .node m ∈ vs → cfg.Home xs s.shift m) (hs : s.Filed cfg next xs) :
    t.Files cfg next xs := by
  induction h with
  | here => exact hs.toFiles
  | next hc _ ih =>
    refine ih ?_ ?_ (hc.filed hnum hn hvs hs)
    · rwa [hc.level.shift_eq]
    · rwa [hc.level.shift_eq]
  | act a _ h => exact (((a.run_steady cfg).fail h).filed hs).toFiles
  | scope kind _ _ ih =>
    exact ih hn hvs (hs.of_eq (t := State.opened _ kind) rfl rfl rfl fun q i d _ hd _ => hd)
  | guard names _ ih =>
    exact ih hn hvs (hs.of_eq (t := State.guarded _ names) rfl rfl rfl fun q i d _ hd _ => hd)
  | @entry n vs s t e m hm he =>
    have hstill := enterNode_eq_error he
    exact hs.toFiles.of_touched hstill.nextNode_eq hstill.marks_eq (enterNode_touches he)
  | @node n vs s t u m hm he _ ih =>
    obtain ⟨hentered, hhome⟩ := hs.enterNode hnum (hvs m hm) he
    exact (ih hhome (fun k hk => hhome.handed hk) hentered).of_eq rfl rfl rfl
  | stray v _ _ _ hr =>
    have hmoved := refuse_moved hr
    obtain ⟨u, hu, rfl | rfl⟩ := refuse_eq_error hr
    · exact hs.toFiles.of_eq hu.nextNode_eq hu.marks_eq hmoved
    · exact hs.toFiles.of_eq hu.nextNode_eq hu.marks_eq hmoved

end Courses

end ScopeLint
