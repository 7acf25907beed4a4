import ScopeLint.Proofs.Checker.Placement
import ScopeLint.Proofs.Checker.ScopeStack

/-! # What the marks of a run say

A run goes through the tree of the check and through the trees of examples, which have numbers of their
own. At every moment of it, the mark of a node says the place where the node is visited in its tree, and
the nodes above it are marked as well. -/
namespace ScopeLint

open List Check

variable {cfg : Setup} {next : Nat} {n m : Node} {s t : State} {trees : List Node} {vs : List Value}
  {q : Queue}

/-- The nodes have the numbers from `next` to before `after`, in this order. -/
def NumberedFrom (next after : Nat) (nodes : List Node) : Prop :=
  next ≤ after ∧ nodes.map (·.id) = List.range' next (after - next)

namespace NumberedFrom

variable {mid after : Nat} {nodes more : List Node}

theorem nil (next : Nat) : NumberedFrom next next [] := ⟨Nat.le_refl _, by simp⟩

theorem append (h : NumberedFrom next mid nodes) (k : NumberedFrom mid after more) :
    NumberedFrom next after (nodes ++ more) := by
  refine ⟨Nat.le_trans h.1 k.1, ?_⟩
  have hstart : mid = next + (mid - next) := (Nat.add_sub_of_le h.1).symm
  have hlength : after - next = (mid - next) + (after - mid) := by
    have := h.1
    have := k.1
    omega
  rw [map_append, h.2, k.2, hlength, ← range'_append_1, ← hstart]

theorem cons (hid : n.id = next) (h : NumberedFrom (next + 1) after nodes) :
    NumberedFrom next after (n :: nodes) := by
  have hself : NumberedFrom next (next + 1) [n] := ⟨Nat.le_succ _, by simp [hid]⟩
  exact hself.append h

theorem nodup (h : NumberedFrom next after nodes) : (nodes.map (·.id)).Nodup := by
  rw [h.2]
  exact nodup_range'

theorem bounds (h : NumberedFrom next after nodes) (hm : m ∈ nodes) :
    next ≤ m.id ∧ m.id < after := by
  have hid : m.id ∈ nodes.map (·.id) := mem_map_of_mem hm
  rw [h.2, mem_range'_1] at hid
  have := h.1
  omega

end NumberedFrom

mutual

theorem Value.numberedFrom (next : Nat) :
    (v : Value) → NumberedFrom next (v.numbered next).2 (v.numbered next).1.nodes
  | .node n => NodeOf.numberedFrom next n
  | .list items => Value.numberedFrom_items next items
  | .text _ | .int _ | .real _ | .bool _ | .null | .constant _ => .nil next

theorem NodeOf.numberedFrom (next : Nat) :
    (n : NodeOf Value) → NumberedFrom next (n.numbered next).2 (n.numbered next).1.nodes
  | ⟨_, _, _, fields⟩ => .cons rfl (Value.numberedFrom_fields (next + 1) fields)

theorem Value.numberedFrom_fields (next : Nat) : (fields : List (String × Value)) →
    NumberedFrom next (Value.numberedFields next fields).2
      (Value.nodesFields (Value.numberedFields next fields).1)
  | [] => .nil next
  | f :: rest => (Value.numberedFrom_field next f).append (Value.numberedFrom_fields _ rest)

theorem Value.numberedFrom_field (next : Nat) : (f : String × Value) →
    NumberedFrom next (Value.numberedField next f).2
      (Value.nodesField (Value.numberedField next f).1)
  | (_, v) => Value.numberedFrom next v

theorem Value.numberedFrom_items (next : Nat) : (items : List Value) →
    NumberedFrom next (Value.numberedItems next items).2
      (Value.nodesItems (Value.numberedItems next items).1)
  | [] => .nil next
  | v :: rest => (Value.numberedFrom next v).append (Value.numberedFrom_items _ rest)

end

/-- A tree all of whose numbers are from `next` on. -/
def NodeOf.FreshFrom (next : Nat) (n : Node) : Prop := ∀ m ∈ n.nodes, next ≤ m.id

/-- The tree of a check: no two nodes have the same number, and all numbers are below `next`. -/
structure Setup.Numbered (cfg : Setup) (next : Nat) : Prop where
  distinct : cfg.root.Distinct
  bounded : ∀ n ∈ cfg.root.nodes, n.id < next

/-- The check with another tree in place of its own. -/
def Setup.over (cfg : Setup) (tree : Node) : Setup := { cfg with root := tree }

namespace State

/-- Whether the node is the root or has been visited. -/
def Seen (s : State) (cfg : Setup) (n : Node) : Prop :=
  n.id = cfg.root.id ∨ (s.mark? n).isSome = true

/-- Whatever has been visited in `s` has been in `t`. -/
def Remembers (t s : State) : Prop := ∀ n : Node, (s.mark? n).isSome = true → (t.mark? n).isSome = true

theorem Seen.mono (h : s.Seen cfg n) (ht : t.Remembers s) :
    t.Seen cfg n :=
  h.imp_right (ht n)

/-- The marks of the nodes of the tree say their places. -/
structure Charted (s : State) (cfg : Setup) : Prop where
  marked : ∀ n ∈ cfg.root.nodes, ∀ k, s.mark? n = some k → ∃ y, Spot.Placed cfg y ∧ y.node = n ∧
    0 < y.level ∧ k = ⟨y.level, y.ancestors⟩ ∧ ∀ a ∈ y.ancestors, s.Seen cfg a

/-- A node of one of the trees that has been visited at its place. -/
def Attends (s : State) (cfg : Setup) (trees : List Node) (n : Node) : Prop :=
  ∃ tree ∈ trees, ∃ x, Spot.Placed (cfg.over tree) x ∧ x.node = n ∧ s.Seen (cfg.over tree) n

/-- The values are to be visited below `n` now, each node at its place. -/
def Hands (s : State) (cfg : Setup) (trees : List Node) (n : Node) (vs : List Value) : Prop :=
  ∃ tree ∈ trees, ∃ x, Spot.Placed (cfg.over tree) x ∧ x.node = n ∧ s.Seen (cfg.over tree) n ∧
    ∀ m, .node m ∈ vs → ∃ y ∈ x.steps (cfg.over tree), y.node = m ∧ y.level = s.depth + 1

/-- The trees that a run has gone through: every mark is of a node of one of them and says its place
there, and the bodies that are put off are of nodes that have been visited. -/
structure Surveyed (s : State) (cfg : Setup) (trees : List Node) : Prop where
  nodup : ((trees.flatMap NodeOf.nodes).map (·.id)).Nodup
  bounded : ∀ tree ∈ trees, ∀ m ∈ tree.nodes, m.id < s.nextNode
  covered : ∀ id, (s.marks.lookup id).isSome = true → ∃ tree ∈ trees, ∃ m ∈ tree.nodes, m.id = id
  charted : ∀ tree ∈ trees, s.Charted (cfg.over tree)
  attends : ∀ q i d n names, s.Entry q i d → d.task = .body n names →
    n.isFunction = true ∧ s.Attends cfg trees n

theorem Hands.attends (h : s.Hands cfg trees n vs) : s.Attends cfg trees n := by
  obtain ⟨tree, htree, x, hx, hn, hseen, -⟩ := h
  exact ⟨tree, htree, x, hx, hn, hseen⟩

theorem Hands.mono (h : s.Hands cfg trees n vs) (ht : t.Remembers s)
    (hdepth : t.depth = s.depth) : t.Hands cfg trees n vs := by
  obtain ⟨tree, htree, x, hx, hn, hseen, hvs⟩ := h
  refine ⟨tree, htree, x, hx, hn, hseen.mono ht, ?_⟩
  rwa [hdepth]

theorem remembers_of_eq (h : t.marks = s.marks) : t.Remembers s := by
  intro n hn
  rwa [mark?, h]

theorem Attends.mono (h : s.Attends cfg trees n) (ht : t.Remembers s) : t.Attends cfg trees n := by
  obtain ⟨tree, htree, x, hx, hn, hseen⟩ := h
  exact ⟨tree, htree, x, hx, hn, hseen.mono ht⟩

theorem Charted.of_marks (h : s.Charted cfg) (hmarks : t.marks = s.marks) : t.Charted cfg where
  marked := by
    intro n hn k hk
    rw [mark?, hmarks] at hk
    obtain ⟨y, hy, hyn, hlevel, hyk, hseen⟩ := h.marked n hn k hk
    exact ⟨y, hy, hyn, hlevel, hyk, fun a ha => (hseen a ha).mono (remembers_of_eq hmarks)⟩

theorem remembers_entered (s : State) (m n : Node) : (s.entered m n).Remembers s := by
  intro a ha
  simp only [mark?, entered, lookup_cons] at ha ⊢
  split
  · rfl
  · exact ha

theorem seen_entered_self (s : State) (m n : Node) : (s.entered m n).Seen cfg m := by
  right
  simp [mark?, entered]

section

variable (h : s.Surveyed cfg trees)

include h

theorem Surveyed.step (hmarks : t.marks = s.marks)
    (hnext : s.nextNode ≤ t.nextNode) (hentry : ∀ q i d, t.Entry q i d → s.Entry q i d) :
    t.Surveyed cfg trees where
  nodup := h.nodup
  bounded := fun tree htree m hm => Nat.lt_of_lt_of_le (h.bounded tree htree m hm) hnext
  covered := hmarks ▸ h.covered
  charted := fun tree htree => (h.charted tree htree).of_marks hmarks
  attends := by
    intro q i d n names hd htask
    obtain ⟨hfunction, hn⟩ := h.attends q i d n names (hentry q i d hd) htask
    exact ⟨hfunction, hn.mono (remembers_of_eq hmarks)⟩

/-- Nothing but the marks, the numbers and the queues counts. -/
theorem Surveyed.of_eq (hmarks : t.marks = s.marks)
    (hnext : t.nextNode = s.nextNode) (hqueue : ∀ q, t.queue q = s.queue q) :
    t.Surveyed cfg trees :=
  h.step hmarks (Nat.le_of_eq hnext.symm) fun q i d hd => by rwa [Entry, ← hqueue q]

theorem Surveyed.alike (ha : s.Alike t) : t.Surveyed cfg trees :=
  h.of_eq ha.marks_eq ha.nextNode_eq ha.queue_eq

theorem Surveyed.withTask (hn : s.Attends cfg trees n) {entries : Array Deferred}
    (hq : s.queue q = some entries) {task : Task} (ht : task.IsOf n) :
    (s.withTask q entries task).Surveyed cfg trees where
  nodup := h.nodup
  bounded := by cases q <;> exact h.bounded
  covered := by cases q <;> exact h.covered
  charted := fun tree htree => (h.charted tree htree).of_marks (by cases q <;> rfl)
  attends := by
    intro other i d m names hd hm
    have hsame : (s.withTask q entries task).Remembers s := by cases q <;> exact fun _ hk => hk
    rcases (entry_withTask hq).mp hd with hd | ⟨-, -, rfl⟩
    · obtain ⟨hfunction, hattends⟩ := h.attends other i d m names hd hm
      exact ⟨hfunction, hattends.mono hsame⟩
    · obtain rfl : task = .body m names := hm
      obtain ⟨rfl, hfunction⟩ := ht
      exact ⟨hfunction, hn.mono hsame⟩

/-- No two of the trees have a number in common. -/
theorem Surveyed.eq_of_id {tree other a b : Node} (htree : tree ∈ trees)
    (hother : other ∈ trees) (ha : a ∈ tree.nodes) (hb : b ∈ other.nodes) (hid : a.id = b.id) :
    tree = other ∧ a = b := by
  have hsame : a = b := inj_on_of_nodup_map h.nodup
    (mem_flatMap.mpr ⟨tree, htree, ha⟩) (mem_flatMap.mpr ⟨other, hother, hb⟩) hid
  refine ⟨?_, hsame⟩
  by_contra hne
  have hpair := (nodup_flatMap.mp (List.Nodup.of_map _ h.nodup)).2
  have hsymm : Std.Symm (Function.onFun List.Disjoint NodeOf.nodes) :=
    ⟨fun _ _ h _ ha hb => h hb ha⟩
  exact hpair.forall htree hother hne ha (hsame ▸ hb)

theorem Surveyed.numbered {tree : Node} (htree : tree ∈ trees) :
    (cfg.over tree).Numbered s.nextNode where
  distinct := by
    have hnodup := h.nodup
    rw [map_flatMap] at hnodup
    exact (nodup_flatMap.mp hnodup).1 tree htree
  bounded := h.bounded tree htree

end

section Tree

variable (hnum : cfg.Numbered next) (h : s.Charted cfg)

include hnum h

variable {x y : Spot}

/-- A node of the tree that has been visited is marked with its place; the root is not marked. -/
theorem Charted.root_or_marked (hx : Spot.Placed cfg x)
    (hseen : s.Seen cfg x.node) : (x = cfg.rootSpot ∧ s.mark? x.node = none) ∨ (0 < x.level ∧
      s.mark? x.node = some ⟨x.level, x.ancestors⟩ ∧ ∀ a ∈ x.ancestors, s.Seen cfg a) := by
  cases hk : s.mark? x.node with
  | none =>
    left
    have hid : x.node.id = cfg.root.id := by
      rcases hseen with hid | hmark
      · exact hid
      · simp [hk] at hmark
    exact ⟨Spot.Above.unique (x := cfg.rootSpot) hnum.distinct hx .refl hid, rfl⟩
  | some k =>
    right
    obtain ⟨y, hy, hnode, hlevel, rfl, hancestors⟩ := h.marked x.node hx.node_mem k hk
    obtain rfl := Spot.Above.unique (x := cfg.rootSpot) hnum.distinct hy hx (congrArg _ hnode)
    exact ⟨hlevel, rfl, hancestors⟩

theorem Charted.lineage_eq (hx : Spot.Placed cfg x)
    (hseen : s.Seen cfg x.node) : s.lineage x.node = x.lineage := by
  unfold lineage
  rcases h.root_or_marked hnum hx hseen with ⟨rfl, hmark⟩ | ⟨-, hmark, -⟩
  · rw [hmark]
    rfl
  · rw [hmark]
    rfl

theorem Charted.level_eq (hx : Spot.Placed cfg x)
    (hseen : s.Seen cfg x.node) : s.level x.node = x.level := by
  unfold level
  rcases h.root_or_marked hnum hx hseen with ⟨rfl, hmark⟩ | ⟨-, hmark, -⟩
  · rw [hmark]
    rfl
  · rw [hmark]

theorem Charted.seen_ancestors (hx : Spot.Placed cfg x)
    (hseen : s.Seen cfg x.node) : ∀ a ∈ x.ancestors, s.Seen cfg a := by
  rcases h.root_or_marked hnum hx hseen with ⟨rfl, -⟩ | ⟨-, -, hancestors⟩
  · simp [Setup.rootSpot]
  · exact hancestors

theorem Charted.seen_of_steps (hx : Spot.Placed cfg x)
    (hy : y ∈ x.steps cfg) (hseen : s.Seen cfg y.node) : s.Seen cfg x.node := by
  refine h.seen_ancestors hnum (hx.tail hy) hseen x.node ?_
  rw [Spot.ancestors_of_mem_steps hy]
  exact mem_cons_self

theorem Charted.seen_of_above (hx : Spot.Placed cfg x)
    (hy : Spot.Above cfg x y) (hseen : s.Seen cfg y.node) : s.Seen cfg x.node := by
  induction hy with
  | refl => exact hseen
  | tail hw hy ih => exact ih (h.seen_of_steps hnum (hx.trans hw) hy hseen)

theorem Charted.entered_of_steps (hx : Spot.Placed cfg x)
    (hseen : s.Seen cfg x.node) (hy : y ∈ x.steps cfg) (hlevel : y.level = s.depth + 1) :
    (s.entered y.node x.node).Charted cfg where
  marked := by
    have hremembers := remembers_entered s y.node x.node
    intro a ha k hk
    simp only [mark?, State.entered, lookup_cons] at hk
    split at hk
    · rename_i hid
      have hyplaced : Spot.Placed cfg y := hx.tail hy
      obtain rfl : y.node = a := hnum.distinct.eq_of_id hyplaced.node_mem ha
        (by simpa using Eq.symm (beq_iff_eq.mp hid))
      cases hk
      refine ⟨y, hyplaced, rfl, Spot.level_pos_of_mem_steps hy, ?_, fun b hb => ?_⟩
      · rw [hlevel, h.lineage_eq hnum hx hseen, Spot.ancestors_of_mem_steps hy]
      · rw [Spot.ancestors_of_mem_steps hy] at hb
        rcases mem_cons.mp hb with rfl | hb
        · exact hseen.mono hremembers
        · exact (h.seen_ancestors hnum hx hseen b hb).mono hremembers
    · obtain ⟨z, hz, hza, hlevel, hzk, hseen⟩ := h.marked a ha k hk
      exact ⟨z, hz, hza, hlevel, hzk, fun b hb => (hseen b hb).mono hremembers⟩

end Tree

theorem Charted.entered_of_ne (h : s.Charted cfg) (hm : ∀ a ∈ cfg.root.nodes, a.id ≠ m.id) :
    (s.entered m n).Charted cfg where
  marked := by
    intro a ha k hk
    have hne : (a.id == m.id) = false := by simpa using hm a ha
    simp only [mark?, State.entered, lookup_cons, hne] at hk
    obtain ⟨y, hy, hya, hlevel, hyk, hseen⟩ := h.marked a ha k hk
    exact ⟨y, hy, hya, hlevel, hyk, fun b hb => (hseen b hb).mono (remembers_entered s m n)⟩

theorem Surveyed.entered (h : s.Surveyed cfg trees) (hh : s.Hands cfg trees n vs)
    (hm : .node m ∈ vs) : (s.entered m n).Surveyed cfg trees := by
  obtain ⟨tree, htree, x, hx, rfl, hseen, hvs⟩ := hh
  obtain ⟨y, hy, rfl, hlevel⟩ := hvs m hm
  have hplaced : Spot.Placed (cfg.over tree) y := hx.tail hy
  refine ⟨h.nodup, h.bounded, fun id hid => ?_, fun other hother => ?_, ?_⟩
  · simp only [State.entered, lookup_cons] at hid
    split at hid
    · rename_i heq
      exact ⟨tree, htree, y.node, hplaced.node_mem, (beq_iff_eq.mp heq).symm⟩
    · exact h.covered id hid
  · by_cases hsame : other = tree
    · subst hsame
      exact (h.charted other hother).entered_of_steps (h.numbered hother) hx hseen hy hlevel
    · refine (h.charted other hother).entered_of_ne fun a ha hid => hsame ?_
      exact (h.eq_of_id hother htree ha hplaced.node_mem hid).1
  · intro q i d a names hd htask
    obtain ⟨hfunction, ha⟩ := h.attends q i d a names (by cases q <;> exact hd) htask
    exact ⟨hfunction, ha.mono (remembers_entered s y.node x.node)⟩

theorem Hands.entered (hs : s.Surveyed cfg trees) (hh : s.Hands cfg trees n vs) (hm : .node m ∈ vs) :
    (s.entered m n).Hands cfg trees m (m.handed cfg.dialect) := by
  obtain ⟨tree, htree, x, hx, rfl, -, hvs⟩ := hh
  obtain ⟨y, hy, rfl, hlevel⟩ := hvs m hm
  refine ⟨tree, htree, y, hx.tail hy, rfl, seen_entered_self s _ _, fun a ha => ?_⟩
  have hne := Spot.Placed.id_ne_root (hs.numbered htree).distinct hx hy
  have hhanded : .node a ∈ (cfg.over tree).handedAt y.node := by rwa [Setup.handedAt, if_neg hne]
  exact ⟨y.below a, Spot.mem_steps.mpr (.inl ⟨a, hhanded, rfl⟩), rfl, congrArg (· + 1) hlevel⟩

theorem Surveyed.enterNode (hs : s.Surveyed cfg trees) (hh : s.Hands cfg trees n vs)
    (hm : .node m ∈ vs) (h : Check.enterNode cfg m n s = .ok () t) :
    t.Hands cfg trees m (m.handed cfg.dialect) ∧ t.Surveyed cfg trees := by
  obtain ⟨u, hu, rfl⟩ := enterNode_eq_ok h
  have hu' := hh.mono (State.remembers_of_eq hu.marks_eq) hu.depth_eq
  have hus := hs.alike hu.toAlike
  exact ⟨hu'.entered hus hm, hus.entered hu' hm⟩

end State

theorem Course.remembers (h : Course cfg n vs s t) : t.Remembers s :=
  h.induces (R := fun s t => t.Remembers s) (fun _ _ hm => hm) (fun h k a hm => k a (h a hm))
    (fun h => State.remembers_of_eq h.marks_eq) (fun _ _ h => h) (fun h => h) (fun _ _ _ hm => hm)
    (fun m n h a hm => h a (State.remembers_entered _ m n a hm))

section Courses

theorem Course.surveyed (h : Course cfg n vs s t)
    (hh : s.Hands cfg trees n vs) (hs : s.Surveyed cfg trees) : t.Surveyed cfg trees := by
  induction h with
  | done => exact hs
  | next hc _ ih ih' => exact ih' (hh.mono hc.remembers hc.level.depth_eq) (ih hh hs)
  | act a _ h => exact hs.alike ((a.run_mild cfg).ok h)
  | scope kind _ _ hp ih =>
    obtain ⟨id, rest, -, rfl⟩ := popScope_eq_ok hp
    exact (ih hh (hs.of_eq rfl rfl fun q => by cases q <;> rfl)).of_eq rfl rfl
      fun q => by cases q <;> rfl
  | guard names _ ih =>
    exact (ih hh (hs.of_eq rfl rfl fun q => by cases q <;> rfl)).of_eq rfl rfl
      fun q => by cases q <;> rfl
  | task task hof hd =>
    obtain ⟨entries, hq, rfl⟩ := defer_eq_ok hd
    exact hs.withTask hh.attends hq hof
  | node m hm he _ ht ih =>
    obtain ⟨hhands, hentered⟩ := hs.enterNode hh hm he
    have hrisen := (ih hhands hentered).of_eq (t := State.risen _) rfl rfl fun q => by cases q <;> rfl
    exact hrisen.alike ((told_traceLine _).ok ht).toAlike

theorem Cut.surveyed (h : Cut cfg n vs s t)
    (hh : s.Hands cfg trees n vs) (hs : s.Surveyed cfg trees) : t.Surveyed cfg trees := by
  induction h with
  | here => exact hs
  | next hc _ ih => exact ih (hh.mono hc.remembers hc.level.depth_eq) (hc.surveyed hh hs)
  | act a _ h => exact hs.alike ((a.run_mild cfg).fail h)
  | scope kind _ _ ih => exact ih hh (hs.of_eq rfl rfl fun q => by cases q <;> rfl)
  | guard names _ ih => exact ih hh (hs.of_eq rfl rfl fun q => by cases q <;> rfl)
  | entry m _ he => exact hs.alike (enterNode_eq_error he).toAlike
  | node m hm he _ ih =>
    obtain ⟨hhands, hentered⟩ := hs.enterNode hh hm he
    exact (ih hhands hentered).of_eq rfl rfl fun q => by cases q <;> rfl
  | stray v _ _ _ hr =>
    obtain ⟨u, hu, rfl | rfl⟩ := refuse_eq_error hr
    · exact hs.alike hu.toAlike
    · exact (hs.alike hu.toAlike).of_eq rfl rfl fun q => by cases q <;> rfl

end Courses

section Runs

/-- The root of a tree hands on its children, also if they are what is put off below it. -/
theorem State.hands_root {tree : Node} (htree : tree ∈ trees) (hdepth : s.depth = 0)
    (hvs : ∀ m, .node m ∈ vs → m ∈ tree.children) :
    s.Hands cfg trees tree vs := by
  refine ⟨tree, htree, (cfg.over tree).rootSpot, .refl, rfl, .inl rfl, fun m hm => ?_⟩
  refine ⟨(cfg.over tree).rootSpot.below m, Spot.mem_steps.mpr (.inl ⟨m, ?_, rfl⟩), rfl, ?_⟩
  · have hroot : (cfg.over tree).rootSpot.node.id = (cfg.over tree).root.id := rfl
    rw [Setup.handedAt, if_pos hroot]
    exact mem_map_of_mem (hvs m hm)
  · rw [hdepth]
    rfl

theorem State.hands_example (hdepth : s.depth = 0) (tree : Node) (shift : Shift) :
    (s.forExample tree shift).Hands cfg ((tree.numbered s.nextNode).1 :: trees)
      (tree.numbered s.nextNode).1 ((tree.numbered s.nextNode).1.children.map .node) :=
  State.hands_root mem_cons_self hdepth fun m hm => by simpa using hm

section

variable (hs : s.Surveyed cfg trees)

include hs

variable {i : Nat} {d : Deferred} {names : List Datum}

/-- The tree of an example has numbers that were free, so that none of its nodes is marked. -/
theorem State.Surveyed.forExample (tree : Node) (shift : Shift) :
    (s.forExample tree shift).Surveyed cfg ((tree.numbered s.nextNode).1 :: trees) := by
  have hnumbered := NodeOf.numberedFrom s.nextNode tree
  have hfresh {m : Node} (hm : m ∈ (tree.numbered s.nextNode).1.nodes) : s.mark? m = none := by
    by_contra hmark
    obtain ⟨other, hother, k, hk, hid⟩ := hs.covered m.id (Option.isSome_iff_ne_none.mpr hmark)
    have hlt := hs.bounded other hother k hk
    have hge := (hnumbered.bounds hm).1
    omega
  refine ⟨?_, ?_, fun id hid => ?_, ?_, fun q i d n names hd htask => ?_⟩
  · rw [flatMap_cons, map_append]
    refine nodup_append.mpr ⟨hnumbered.nodup, hs.nodup, ?_⟩
    rintro id hid _ hother rfl
    obtain ⟨m, hm, rfl⟩ := mem_map.mp hid
    obtain ⟨k, hk, hkm⟩ := mem_map.mp hother
    obtain ⟨other, hother, hk⟩ := mem_flatMap.mp hk
    have hlt := hs.bounded other hother k hk
    have hge := (hnumbered.bounds hm).1
    omega
  · refine forall_mem_cons.mpr ⟨fun m hm => (hnumbered.bounds hm).2, fun other hother m hm => ?_⟩
    exact Nat.lt_of_lt_of_le (hs.bounded other hother m hm) hnumbered.1
  · obtain ⟨other, hother, hrest⟩ := hs.covered id hid
    exact ⟨other, mem_cons_of_mem _ hother, hrest⟩
  · refine forall_mem_cons.mpr ⟨⟨fun m hm k hk => ?_⟩, fun other hother => ?_⟩
    · have hnone : (s.forExample tree shift).mark? m = none := hfresh hm
      cases hnone.symm.trans hk
    · exact (hs.charted other hother).of_marks rfl
  · obtain ⟨hfunction, other, hother, hrest⟩ :=
      hs.attends q i d n names (by cases q <;> exact hd) htask
    exact ⟨hfunction, other, mem_cons_of_mem _ hother, hrest⟩

theorem State.Surveyed.resumed (q : Queue) (i : Nat) (d : Deferred) :
    (s.resumed q i d).Surveyed cfg trees :=
  hs.of_eq rfl rfl fun q => by cases q <;> rfl

theorem State.Surveyed.opened (kind : ScopeKind) : (s.opened kind).Surveyed cfg trees :=
  hs.of_eq rfl rfl fun q => by cases q <;> rfl

theorem State.Surveyed.finished {entries : Array Deferred}
    (hentries : s.assignments = some entries) (n : Node) (top : ScopeId) :
    (s.finished n top entries (cfg.verdicts n)).Surveyed cfg trees where
  nodup := hs.nodup
  bounded := hs.bounded
  covered := hs.covered
  charted := fun tree htree => (hs.charted tree htree).of_marks rfl
  attends := by
    intro q i d m names hd htask
    rcases (State.entry_finished hentries).mp hd with hd | ⟨-, -, task, hverdict, rfl⟩
    · exact hs.attends q i d m names hd htask
    · have hmem := mem_of_getElem? hverdict
      obtain rfl : task = .body m names := htask
      unfold Setup.verdicts at hmem
      split at hmem <;> simp at hmem

theorem State.hands_body (hdepth : s.depth = 0) (he : s.Entry q i d) (ht : d.task = .body n names) :
    (s.resumed q i d).Hands cfg trees n n.deferred := by
  obtain ⟨hfunction, tree, htree, x, hx, rfl, hseen⟩ := hs.attends q i d n names he ht
  by_cases hid : x.node.id = tree.id
  · obtain rfl := Spot.Above.unique (x := (cfg.over tree).rootSpot) (hs.numbered htree).distinct hx
      .refl hid
    exact State.hands_root htree hdepth fun m hm => NodeOf.mem_children_of_deferred hm
  · refine ⟨tree, htree, x, hx, rfl, hseen, fun m hm => ?_⟩
    have hbody : .node m ∈ (cfg.over tree).deferredAt x.node := by
      have hid : x.node.id ≠ (cfg.over tree).root.id := hid
      rwa [Setup.deferredAt, if_neg hid, if_pos hfunction]
    refine ⟨x.inBody m, Spot.mem_steps.mpr (.inr ⟨m, hbody, rfl⟩), rfl, ?_⟩
    exact congrArg (· + 1) hdepth.symm

/-- The body of a function starts with its parameters in a scope of their own. -/
private theorem State.Surveyed.parameters (hdepth : s.depth = 0) (he : s.Entry q i d)
    (ht : d.task = .body n names) {r : State} (h : ((s.resumed q i d).opened .function).Alike r) :
    r.Hands cfg trees n n.deferred ∧ r.Surveyed cfg trees := by
  constructor
  · refine (State.hands_body hs hdepth he ht).mono (fun m hm => ?_) h.depth_eq
    exact State.remembers_of_eq h.marks_eq m hm
  · exact ((hs.resumed q i d).opened _).alike h

end

theorem Examples.surveyed (h : Examples cfg s t) (hdepth : s.depth = 0)
    (hs : s.Surveyed cfg trees) : ∃ more, t.Surveyed cfg (more ++ trees) := by
  induction h generalizing trees with
  | done => exact ⟨[], hs⟩
  | next h _ ih ih' =>
    obtain ⟨more, hmid⟩ := ih hdepth hs
    obtain ⟨further, hend⟩ := ih' (h.outline.2.2.trans hdepth) hmid
    exact ⟨further ++ more, by rwa [append_assoc]⟩
  | speech h => exact ⟨[], hs.alike h.alike⟩
  | tree tree shift back h =>
    have hend := h.surveyed (State.hands_example hdepth tree shift) (hs.forExample tree shift)
    exact ⟨[_], hend.of_eq rfl rfl fun q => by cases q <;> rfl⟩

theorem ExamplesCut.surveyed (h : ExamplesCut cfg s t) (hdepth : s.depth = 0)
    (hs : s.Surveyed cfg trees) : ∃ more, t.Surveyed cfg (more ++ trees) := by
  induction h generalizing trees with
  | here => exact ⟨[], hs⟩
  | next h _ ih =>
    obtain ⟨more, hmid⟩ := h.surveyed hdepth hs
    obtain ⟨further, hend⟩ := ih (h.outline.2.2.trans hdepth) hmid
    exact ⟨further ++ more, by rwa [append_assoc]⟩
  | speech h => exact ⟨[], hs.alike h.alike⟩
  | tree tree shift h =>
    exact ⟨[_], h.surveyed (State.hands_example hdepth tree shift) (hs.forExample tree shift)⟩

theorem Stroke.surveyed (h : Stroke cfg q s t) (hdepth : s.depth = 0) (hs : s.Surveyed cfg trees) :
    ∃ more, t.Surveyed cfg (more ++ trees) := by
  cases h with
  | @body r u v _ i d n names he ht hparameters hcourse hfinish hpop =>
    have halike := (mild_bindParameters cfg n names).ok hparameters
    obtain ⟨hhands, hr⟩ := hs.parameters hdepth he ht halike
    obtain ⟨top, _, entries, -, hentries, rfl⟩ := finishBody_eq_ok hfinish
    obtain ⟨id, rest, -, rfl⟩ := popScope_eq_ok hpop
    have hfinished := (hcourse.surveyed hhands hr).finished hentries n top
    exact ⟨[], hfinished.of_eq rfl rfl fun q => by cases q <;> rfl⟩
  | doctests _ h hp =>
    obtain ⟨id, rest, -, rfl⟩ := popScope_eq_ok hp
    obtain ⟨more, hend⟩ := h.surveyed hdepth ((hs.resumed _ _ _).opened _)
    exact ⟨more, hend.of_eq rfl rfl fun q => by cases q <;> rfl⟩
  | idle _ => exact ⟨[], hs.resumed _ _ _⟩
  | verdict _ _ h => exact ⟨[], (hs.resumed _ _ _).alike h.alike⟩

theorem StrokeCut.surveyed (h : StrokeCut cfg s t) (hdepth : s.depth = 0)
    (hroot : cfg.root ∈ trees) (hs : s.Surveyed cfg trees) :
    ∃ more, t.Surveyed cfg (more ++ trees) := by
  cases h with
  | here => exact ⟨[], hs⟩
  | walk h =>
    exact ⟨[], h.surveyed (State.hands_root hroot hdepth fun m hm => by simpa using hm) hs⟩
  | parameters he ht h =>
    exact ⟨[], (hs.parameters hdepth he ht ((mild_bindParameters _ _ _).fail h)).2⟩
  | body he ht hparameters h =>
    have halike := (mild_bindParameters _ _ _).ok hparameters
    obtain ⟨hhands, hr⟩ := hs.parameters hdepth he ht halike
    exact ⟨[], h.surveyed hhands hr⟩
  | doctests _ h => exact h.surveyed hdepth ((hs.resumed _ _ _).opened _)
  | verdict _ h => exact ⟨[], (hs.resumed _ _ _).alike h.alike⟩

variable (hnum : cfg.Numbered next)

include hnum

theorem State.surveyed_initial : (State.initial next).Surveyed cfg [cfg.root] where
  nodup := by
    rw [flatMap_singleton]
    exact hnum.distinct
  bounded := by simpa [State.initial] using hnum.bounded
  covered := fun id hid => by simp [State.initial] at hid
  charted := fun tree _ => ⟨fun n _ k hk => by cases hk⟩
  attends := by
    rintro q i d n names ⟨entries, hq, hd⟩
    cases q <;> cases hq <;> simp at hd

theorem Run.surveyed (h : Run cfg next s) : ∃ trees, cfg.root ∈ trees ∧ s.Surveyed cfg trees := by
  have hinitial := State.surveyed_initial hnum
  have hmem : cfg.root ∈ [cfg.root] := mem_cons_self
  induction h with
  | start => exact ⟨_, hmem, hinitial⟩
  | walk h =>
    exact ⟨_, hmem, h.surveyed (State.hands_root hmem rfl fun m hm => by simpa using hm) hinitial⟩
  | stroke hrun h ih =>
    obtain ⟨trees, hroot, hs⟩ := ih
    obtain ⟨more, ht⟩ := h.surveyed hrun.outline.2 hs
    exact ⟨_, mem_append_right _ hroot, ht⟩
  | close _ ih =>
    obtain ⟨trees, hroot, hs⟩ := ih
    refine ⟨trees, hroot, hs.step rfl (Nat.le_refl _) fun q i d hd => ?_⟩
    cases q with
    | functions =>
      obtain ⟨entries, hnone, -⟩ := hd
      cases hnone
    | assignments => exact hd

theorem Run.charted (h : Run cfg next s) : s.Charted cfg := by
  obtain ⟨trees, hroot, hs⟩ := h.surveyed hnum
  exact hs.charted cfg.root hroot

/-- At every moment of a run the marks say where the nodes of its trees are visited. -/
theorem Check.surveyed_reached (stop : Moment → State → Bool) :
    ∃ trees, cfg.root ∈ trees ∧ (reached cfg stop next).Surveyed cfg trees := by
  obtain ⟨s, hrun, hcut⟩ := cut_reached cfg stop next
  obtain ⟨trees, hroot, hs⟩ := hrun.surveyed hnum
  obtain ⟨more, ht⟩ := hcut.surveyed hrun.outline.2 hroot hs
  exact ⟨_, mem_append_right _ hroot, ht⟩

theorem Check.charted_reached (stop : Moment → State → Bool) :
    (reached cfg stop next).Charted cfg := by
  obtain ⟨trees, hroot, hs⟩ := surveyed_reached hnum stop
  exact hs.charted cfg.root hroot

end Runs

end ScopeLint
