import Mathlib.Data.List.Forall2
import ScopeLint.Proofs.Checker.BindingEvents
import ScopeLint.Proofs.Checker.Scenes

/-! # Two checks side by side

Two checks of one tree may have come to the same part of it on different ways: they have opened
other scopes before, and those scopes have other numbers. If the scopes that are open hold bindings
that agree, then the checks take the steps of the part abreast. They find and bind names in scopes
that stand for each other, and give the same reports on names. -/
namespace ScopeLint

open List Check

variable {root n m : Node}

/-- Whether a value, if it is a node, is one of the tree. -/
def Value.IsIn (root : Node) (v : Value) : Prop := ∀ m, v = .node m → m ∈ root.nodes

theorem Value.isIn_node (h : n ∈ root.nodes) : (Value.node n).IsIn root := by
  rintro m heq
  cases heq
  exact h

theorem Value.isIn_null (root : Node) : Value.null.IsIn root := fun _ h => nomatch h

theorem NodeOf.mem_nodes_of_mem_nodes (hn : n ∈ root.nodes) (hm : m ∈ n.nodes) : m ∈ root.nodes :=
  (NodeOf.sublist_of_mem_nodes root hn).subset hm

theorem NodeOf.mem_nodes_of_child (hn : n ∈ root.nodes) (hm : m ∈ n.children) : m ∈ root.nodes :=
  NodeOf.mem_nodes_of_mem_nodes hn (NodeOf.mem_nodes_of_mem_children hm)

theorem NodeOf.isIn_of_get {name : String} {v : Value} (h : n.get name = .ok v)
    (hn : n ∈ root.nodes) : v.IsIn root := by
  rintro m rfl
  exact NodeOf.mem_nodes_of_child hn (NodeOf.mem_children_of_get h (by simp [Value.children]))

theorem covers_nodes (root : Node) : Covers (· ∈ root.nodes) (Value.IsIn root) where
  node _ hn := Value.isIn_node hn
  target _ _ hn h := NodeOf.isIn_of_get h hn

namespace Base

/-- What is compared of a use of a binding in the scope `id`: in a scope that has been opened since the
start, that there is one; in an older scope the node, if the use is from the first scope that has been
opened. -/
def sees (o : Base) (id : ScopeId) (use : Use) : Option Value :=
  if o.size ≤ id then some .null else if use.scope = o.size then some use.node else none

/-- Which scopes stand for each other: of those that were opened since the start, the ones with the same
number, and some of the older ones. -/
inductive Pairs (o p : Base) (old : ScopeId → ScopeId → Prop) : ScopeId → ScopeId → Prop
  | made (d : Nat) : Pairs o p old (o.size + d) (p.size + d)
  | older {i j : ScopeId} : old i j → Pairs o p old i j

/-- The older scopes that stand for each other look alike, and those that are open do so in order. -/
structure Pairing (o p : Base) (old : ScopeId → ScopeId → Prop) : Prop where
  iff : ∀ {i j i' j' : ScopeId}, old i j → old i' j' → (i = i' ↔ j = j')
  lt : ∀ {i j : Nat}, old i j → i < o.size ∧ j < p.size
  view_eq : ∀ {i j : ScopeId}, old i j → o.view i = p.view j
  open_pairs : List.Forall₂ old o.stack p.stack

variable {o p : Base} {old : ScopeId → ScopeId → Prop}

namespace Pairing

theorem views_eq (h : o.Pairing p old) : o.views = p.views := by
  rw [views, views, ← forall₂_eq_eq_eq, forall₂_map_left_iff, forall₂_map_right_iff]
  exact h.open_pairs.imp fun _ _ => h.view_eq

theorem pairs_iff (h : o.Pairing p old) {i j i' j' : ScopeId} (hij : o.Pairs p old i j)
    (hij' : o.Pairs p old i' j') : i = i' ↔ j = j' := by
  cases hij with
  | made d =>
    cases hij' with
    | made e => simp
    | older hold =>
      obtain ⟨hi, hj⟩ := h.lt hold
      constructor <;> (rintro rfl; omega)
  | older hold =>
    cases hij' with
    | made e =>
      obtain ⟨hi, hj⟩ := h.lt hold
      constructor <;> (rintro rfl; omega)
    | older hold' => exact h.iff hold hold'

theorem forall₂_ids (h : o.Pairing p old) (ds : List Nat) :
    List.Forall₂ (o.Pairs p old) (o.ids ds) (p.ids ds) := by
  refine rel_append (forall₂_map_left_iff.mpr (forall₂_map_right_iff.mpr ?_))
    (h.open_pairs.imp fun _ _ => .older)
  exact forall₂_same.mpr fun d _ => .made d

end Pairing

end Base

/-- Bindings that agree, as far as uses are compared: they are of one kind and have one source, which is
in the tree. -/
inductive Binding.Agree (root : Node) (see see' : Use → Option Value) :
    Option Binding → Option Binding → Prop
  | none : Agree root see see' none none
  | some {b c : Binding} : b.kind = c.kind → b.source = c.source →
      b.used.bind see = c.used.bind see' → b.source.IsIn root →
      (∀ v, b.used.bind see = some v → v.IsIn root) → Agree root see see' (some b) (some c)

/-- A step that is no work on a docstring is one of a visit in any case. -/
theorem Step.IsFrom.of_plain {cfg any : Setup} {among : Node → Prop} {step : Step}
    (h : step.IsFrom cfg among) (hplain : step.isDoctests = false) : step.IsFrom any among := by
  match step with
  | .take _ (.defers (.doctests _)) => cases hplain
  | .take _ (.defers (.body _ _)) | .take _ (.defers .assignments) | .take _ (.defers (.returns _))
  | .take _ (.act _) | .take _ (.future _) | .take _ (.late _) | .take _ (.visit _)
  | .take _ (.opens _) | .take _ .closes | .take _ (.guards _) | .take _ .unguards | .enter _ _
  | .leave _ => exact h

/-- What two steps do to bindings in scopes that stand for each other. -/
inductive Event.Match (root : Node) (o p : Base) (old : ScopeId → ScopeId → Prop) :
    Option Event → Option Event → Prop
  | none : Match root o p old none none
  | loaded {i j : ScopeId} {key : Datum.Key} {d : Nat} {v : Value} : o.Pairs p old i j → v.IsIn root →
      Match root o p old (some (.loaded i key ⟨o.size + d, v⟩)) (some (.loaded j key ⟨p.size + d, v⟩))
  | bound {d : Nat} {key : Datum.Key} {n : Node} {b c : Binding} : b.kind = c.kind →
      b.source = c.source → b.isUsed = c.isUsed → b.source.IsIn root →
      Match root o p old (some (.bound (o.size + d) key n b)) (some (.bound (p.size + d) key n c))
  | deleted {d : Nat} {key : Datum.Key} :
      Match root o p old (some (.deleted (o.size + d) key)) (some (.deleted (p.size + d) key))

section Agree

variable {root : Node} {o p : Base} {old : ScopeId → ScopeId → Prop} {i j : ScopeId}
  {x y : Option Binding}

theorem Base.sees_made (o : Base) (d : Nat) (use : Use) : o.sees (o.size + d) use = some .null :=
  if_pos (Nat.le_add_right _ _)

theorem Base.bind_sees_made (o : Base) (d : Nat) (used : Option Use) :
    used.bind (o.sees (o.size + d)) = used.map fun _ => .null := by
  cases used with
  | none => rfl
  | some use => exact o.sees_made d use

/-- What is compared of a use from a scope that has been opened since the start. -/
theorem Base.Pairing.sees_eq (h : o.Pairing p old) (hij : o.Pairs p old i j) (d : Nat) (v : Value) :
    o.sees i ⟨o.size + d, v⟩ = p.sees j ⟨p.size + d, v⟩ := by
  cases hij with
  | made e => rw [Base.sees_made, Base.sees_made]
  | older hold =>
    obtain ⟨hi, hj⟩ := h.lt hold
    have hleft : o.size + d = o.size ↔ p.size + d = p.size := by omega
    simp only [Base.sees, if_neg (Nat.not_le.mpr hi), if_neg (Nat.not_le.mpr hj), hleft]

theorem Base.isIn_sees {v w : Value} {id : ScopeId} {scope : ScopeId} (hv : v.IsIn root)
    (h : o.sees id ⟨scope, v⟩ = some w) : w.IsIn root := by
  unfold Base.sees at h
  split at h
  · cases h
    exact Value.isIn_null root
  · split at h
    · cases h
      exact hv
    · cases h

theorem Binding.Agree.isSome_eq {see see' : Use → Option Value} (h : Agree root see see' x y) :
    x.isSome = y.isSome := by
  cases h <;> rfl

theorem Base.isUsed_eq_of_sees {d : Nat} {b c : Binding}
    (h : b.used.bind (o.sees (o.size + d)) = c.used.bind (p.sees (p.size + d))) :
    b.isUsed = c.isUsed := by
  rw [Base.bind_sees_made, Base.bind_sees_made] at h
  simpa [Binding.isUsed] using congrArg Option.isSome h

theorem Event.Match.agree {e e' : Option Event} (h : Match root o p old e e')
    (hpairing : o.Pairing p old) (hij : o.Pairs p old i j) (key : Datum.Key)
    (hxy : Binding.Agree root (o.sees i) (p.sees j) x y) :
    Binding.Agree root (o.sees i) (p.sees j) (Event.afterAll e i key x)
      (Event.afterAll e' j key y) := by
  cases h with
  | none => exact hxy
  | @loaded i' j' k d v hpair hv =>
    simp only [afterAll, Option.elim_some, after, hpairing.pairs_iff hij hpair]
    split
    · cases hxy with
      | none => exact .none
      | some hkind hsource _ hin _ =>
        refine .some hkind hsource (hpairing.sees_eq hij d v) hin fun w hw => ?_
        exact Base.isIn_sees hv hw
    · exact hxy
  | @bound d k n b c hkind hsource hused hin =>
    simp only [afterAll, Option.elim_some, after, hpairing.pairs_iff hij (.made d)]
    split
    · rename_i heq
      obtain ⟨rfl, -⟩ := heq
      obtain rfl : i = o.size + d := (hpairing.pairs_iff hij (.made d)).mpr rfl
      refine .some hkind hsource ?_ hin fun v hv => ?_
      · rw [Base.bind_sees_made, Base.bind_sees_made]
        unfold Binding.isUsed at hused
        cases hb : b.used <;> cases hc : c.used <;> simp_all
      · rw [Base.bind_sees_made] at hv
        obtain ⟨use, -, rfl⟩ := Option.map_eq_some_iff.mp hv
        exact Value.isIn_null root
    · exact hxy
  | @deleted d k =>
    simp only [afterAll, Option.elim_some, after, hpairing.pairs_iff hij (.made d)]
    split
    · exact .none
    · exact hxy

end Agree

section Doctests

/-! What a step does to bindings, and which names it misses, does not depend on whether docstrings are
looked at. -/

variable (cfg : Setup) (on : Bool) (s : State)

theorem State.placing?_withDoctests (n : Node) (b : Binding) :
    s.placing? (cfg.withDoctests on) n b = s.placing? cfg n b := by
  have hapart : s.apart (cfg.withDoctests on) n = s.apart cfg n := by
    funext v
    cases v <;> rfl
  have hkeeps : s.keeps (cfg.withDoctests on) n = s.keeps cfg n := by
    funext existing
    rw [keeps, hapart, keeps]
  rw [placing?, hkeeps, placing?]

theorem Step.event?_withDoctests (step : Step) :
    step.event? (cfg.withDoctests on) s = step.event? cfg s := by
  cases step with
  | take n op =>
    cases op with
    | act a =>
      cases a with
      | store n => simp only [event?, Act.event?, State.placing?_withDoctests]
      | bind n b hidden => simp only [event?, Act.event?, State.placing?_withDoctests]
      | _ => rfl
    | future b => simp only [event?, State.placing?_withDoctests]
    | _ => rfl
  | _ => rfl

theorem Step.missed?_withDoctests (base : List View) (sc : Scene) (step : Step) :
    step.missed? (cfg.withDoctests on) base sc = step.missed? cfg base sc := by
  have hmisses : (cfg.withDoctests on).misses = cfg.misses := rfl
  cases step with
  | take n op =>
    cases op with
    | act a =>
      cases a with
      | load v => simp only [missed?, hmisses]
      | _ => rfl
    | _ => rfl
  | _ => rfl

end Doctests

namespace State

/-- Two checks have marked and placed the nodes of the tree alike, and above nodes of the tree there are
only nodes of the tree. -/
structure SameMap (root : Node) (s t : State) : Prop where
  mark_eq : ∀ n ∈ root.nodes, t.mark? n = s.mark? n
  above : ∀ n ∈ root.nodes, ∀ k, s.mark? n = some k → ∀ a ∈ k.ancestors, a ∈ root.nodes
  position_eq : ∀ n ∈ root.nodes, t.position? n = s.position? n

variable {root : Node} {s t : State} {R : ScopeId → ScopeId → Prop}

theorem SameMap.datumOf_eq (h : s.SameMap root t) {v : Value} (hv : v.IsIn root) :
    t.datumOf v = s.datumOf v := by
  cases v with
  | node n => simp only [datumOf, h.position_eq n (hv n rfl)]
  | _ => rfl

theorem SameMap.step {cfg cfg' any : Setup} {s' t' : State} {step : Step} (h : s.SameMap root t)
    (hstep : step.IsFrom any (· ∈ root.nodes)) (hdepth : t.depth = s.depth) (hs : s.shift = none)
    (ht : t.shift = none) (hl : step.Leads cfg s s') (hr : step.Leads cfg' t t') :
    s'.SameMap root t' := by
  have hstays {cfg : Setup} {r r' : State} (hr : r.shift = none) (h : step.Leads cfg r r') :
      r'.moved = r.moved := by
    rcases h.moved_cases with heq | ⟨m, n, p, shift, -, hshift, -⟩
    · exact heq
    · rw [hr] at hshift
      cases hshift
  have hposition (n : Node) (hn : n ∈ root.nodes) : t'.position? n = s'.position? n := by
    have heq := h.position_eq n hn
    rw [position?, position?] at heq ⊢
    rwa [hstays ht hr, hstays hs hl]
  by_cases henter : ∃ m n, step = .enter m n
  · obtain ⟨m, above, rfl⟩ := henter
    have hlineage : t.lineage above = s.lineage above :=
      @lineage_congr s t _ (· ∈ root.nodes) h.mark_eq hstep.2
    have hmark {cfg : Setup} {r r' : State} (h : Step.Leads cfg r (.enter m above) r') (n : Node) :
        r'.mark? n = if n.id == m.id then some ⟨r.depth + 1, r.lineage above⟩ else r.mark? n := by
      rw [mark?, h.marks_eq, Step.marks, lookup_cons, mark?]
      split <;> simp_all
    refine ⟨fun n hn => ?_, fun n hn k hk a ha => ?_, hposition⟩
    · rw [hmark hr, hmark hl, hdepth, hlineage, h.mark_eq n hn]
    · rw [hmark hl] at hk
      split at hk
      · cases hk
        exact @main_of_mem_lineage s (· ∈ root.nodes) (fun n k hn => h.above n hn k) _ _ hstep.2 ha
      · exact h.above n hn k hk a ha
  · have hsame {cfg : Setup} {r r' : State} (h : step.Leads cfg r r') : r'.marks = r.marks := by
      rw [h.marks_eq]
      cases step with
      | enter m n => exact absurd ⟨m, n, rfl⟩ henter
      | _ => rfl
    refine ⟨fun n hn => ?_, fun n hn k hk => ?_, hposition⟩
    · rw [mark?, mark?, hsame hr, hsame hl]
      exact h.mark_eq n hn
    · rw [mark?, hsame hl] at hk
      exact h.above n hn k hk

/-- The scopes that a look-up goes through stand for each other, if the open scopes do. -/
theorem forall₂_visible (hview : ∀ {i j}, R i j → s.viewOf i = t.viewOf j)
    (hstack : List.Forall₂ R s.stack t.stack) :
    (∃ e e', s.visibleScopes = .error e ∧ t.visibleScopes = .error e') ∨
      ∃ xs ys, s.visibleScopes = .ok xs ∧ t.visibleScopes = .ok ys ∧ List.Forall₂ R xs ys := by
  unfold visibleScopes
  generalize s.stack = xs at hstack
  generalize t.stack = ys at hstack
  cases hstack with
  | nil => exact .inl ⟨_, _, rfl, rfl⟩
  | @cons top top' outer outer' htop houter =>
    have hlends {i j : ScopeId} (hij : R i j) : s.isLending i = t.isLending j := by
      rw [← isLending_viewOf, hview hij, isLending_viewOf]
    have hempty {i j : ScopeId} (hij : R i j) : s.isEmptyScope i = true ↔ t.isEmptyScope j = true := by
      rw [← keys_viewOf_eq_empty, hview hij, keys_viewOf_eq_empty]
    have hlending : List.Forall₂ R (outer.filter s.isLending) (outer'.filter t.isLending) := by
      refine rel_filter (fun i j hij => ?_) houter
      change s.isLending i = true ↔ t.isLending j = true
      rw [hlends hij]
    have hkind : s.kindOf top = some .generator ↔ t.kindOf top' = some .generator := by
      rw [← kind_viewOf (by decide), hview htop, kind_viewOf (by decide)]
    dsimp only
    by_cases hgenerator : s.kindOf top = some .generator
    · rw [if_pos hgenerator, if_pos (hkind.mp hgenerator)]
      cases houter with
      | nil => exact .inl ⟨_, _, rfl, rfl⟩
      | @cons below below' rest rest' hbelow hrest =>
        cases hx : (below :: rest).filter s.isLending with
        | nil =>
          rw [hx, forall₂_nil_left_iff] at hlending
          rw [hlending]
          exact .inl ⟨_, _, rfl, rfl⟩
        | cons nearest more =>
          rw [hx] at hlending
          obtain ⟨nearest', more', hnearest, hmore, hy⟩ := forall₂_cons_left_iff.mp hlending
          have hcond : nearest = below ∨ (s.isEmptyScope nearest = true ∧
              s.isEmptyScope below = true) ↔ nearest' = below' ∨
              (t.isEmptyScope nearest' = true ∧ t.isEmptyScope below' = true) := by
            rw [head_filter_eq_iff hx, head_filter_eq_iff hy, hlends hbelow, hempty hnearest,
              hempty hbelow]
          right
          rw [hy]
          dsimp only
          split
          · rename_i hleft
            exact ⟨_, _, rfl, if_pos (hcond.mp hleft), .cons htop (.cons hnearest hmore)⟩
          · rename_i hleft
            exact ⟨_, _, rfl, if_neg (mt hcond.mpr hleft),
              .cons htop (.cons hbelow (.cons hnearest hmore))⟩
    · rw [if_neg hgenerator, if_neg (mt hkind.mpr hgenerator)]
      exact .inr ⟨_, _, rfl, rfl, .cons htop hlending⟩

theorem rel_find? {p q : ScopeId → Bool} {xs ys : List ScopeId}
    (h : List.Forall₂ R xs ys) (hpq : ∀ {i j}, R i j → p i = q j) :
    Option.Rel R (xs.find? p) (ys.find? q) := by
  induction h with
  | nil => exact .none
  | @cons i j xs ys hij hrest ih =>
    rw [find?_cons, find?_cons, ← hpq hij]
    cases p i with
    | true => exact .some hij
    | false => exact ih

end State

namespace Scene

/-- Only the first of the scopes may be the scope of a function, and inner scopes have higher
numbers. -/
structure Inner (sc : Scene) : Prop where
  kind_ne : ∀ d, 0 < d → d < sc.made.length → (sc.view d).kind ≠ .function
  sorted : sc.stack.Pairwise (· > ·)

theorem Inner.stack_eq {sc : Scene} (h : sc.Inner) {d : Nat} {ds : List Nat}
    (hstack : sc.stack = d :: ds) (hd : d < sc.made.length) (hkind : (sc.view d).kind = .function) :
    d = 0 ∧ ds = [] := by
  have hzero : d = 0 := by
    by_contra hne
    exact h.kind_ne d (Nat.pos_of_ne_zero hne) hd hkind
  refine ⟨hzero, eq_nil_iff_forall_not_mem.mpr fun e he => ?_⟩
  have hsorted := h.sorted
  rw [hstack, hzero] at hsorted
  exact Nat.not_lt_zero e (rel_of_pairwise_cons hsorted he)

end Scene

theorem Act.kind_alter (a : Act) (w : View) : (a.alter w).kind = w.kind := by
  cases a with
  | store n =>
    rw [alter]
    split <;> rfl
  | bind n b hidden =>
    rw [alter]
    split <;> rfl
  | delete n =>
    rw [alter]
    split
    · split <;> rfl
    · rfl
  | globals n =>
    rw [alter]
    split
    · generalize ((n.itemsOf "names").toOption.getD []).filterMap (·.datum.key.toOption) = keys
      induction keys generalizing w with
      | nil => rfl
      | cons key rest ih => exact (ih _ (by assumption)).trans rfl
    · rfl
  | _ => rfl

theorem Step.inner_scene {cfg : Setup} {among : Node → Prop} {sc : Scene} {step : Step}
    (h : sc.Inner) (hstep : step.IsFrom cfg among) (hbound : ∀ d ∈ sc.stack, d < sc.made.length) :
    (step.scene sc).Inner := by
  have halter (f : View → View) (hf : ∀ w, (f w).kind = w.kind) : (sc.alter f).Inner := by
    cases hstack : sc.stack with
    | nil =>
      rw [Scene.alter, hstack]
      exact h
    | cons d ds =>
      have hd := hbound d (by simp [hstack])
      have hlength : (sc.alter f).made.length = sc.made.length := by simp [Scene.alter, hstack]
      refine ⟨fun e hpos hlt => ?_, ?_⟩
      · rw [hlength] at hlt
        rw [Scene.view_alter hstack hd]
        have hkind := h.kind_ne e hpos hlt
        split
        · rwa [hf]
        · exact hkind
      · have hsame : (sc.alter f).stack = sc.stack := by simp [Scene.alter, hstack]
        rw [hsame]
        exact h.sorted
  cases step with
  | enter | leave => exact h
  | take n op =>
    cases op with
    | act a => exact halter a.alter a.kind_alter
    | future b => exact halter _ (Act.kind_alter (.bind n b true))
    | opens kind =>
      refine ⟨fun d hpos hlt => ?_, pairwise_cons.mpr ⟨hbound, h.sorted⟩⟩
      rw [scene, Scene.view_opened]
      have hlength : (sc.opened kind).made.length = sc.made.length + 1 := by simp [Scene.opened]
      split
      · exact hstep.2.1.2
      · exact h.kind_ne d hpos (by rw [scene, hlength] at hlt; omega)
    | closes => exact ⟨h.kind_ne, h.sorted.tail⟩
    | guards | unguards => exact ⟨h.kind_ne, h.sorted⟩
    | late | visit | defers => exact h

/-- Two checks that are at the same place of a part of the tree, with the older scopes that stand
for each other: they show one scene, and the bindings of scopes that stand for each other agree. -/
structure Abreast (cfg : Setup) (o p : Base) (old : ScopeId → ScopeId → Prop) (sc : Scene)
    (s t : State) : Prop where
  left : s.Shows o sc
  right : t.Shows p sc
  pairing : o.Pairing p old
  inner : sc.Inner
  agree : ∀ {i j}, o.Pairs p old i j → ∀ key,
    Binding.Agree cfg.root (o.sees i) (p.sees j) (s.binding? i key) (t.binding? j key)
  map : s.SameMap cfg.root t
  depth_eq : t.depth = s.depth
  left_shift : s.shift = none
  right_shift : t.shift = none

variable {cfg : Setup} {o p : Base} {old : ScopeId → ScopeId → Prop} {sc : Scene} {s t : State}
  {n : Node}

namespace Abreast

variable (h : Abreast cfg o p old sc s t)

include h

theorem viewOf_eq {i j : ScopeId} (hij : o.Pairs p old i j) : s.viewOf i = t.viewOf j := by
  cases hij with
  | made d =>
    by_cases hd : d < sc.made.length
    · rw [h.left.view_eq d hd, h.right.view_eq d hd]
    · have hout {r : State} {q : Base} (hr : r.Shows q sc) : r.scope? (q.size + d) = none := by
        have hsize := hr.size_eq
        rw [State.scope?, Array.getElem?_eq_none_iff]
        omega
      rw [State.viewOf, State.viewOf, hout h.left, hout h.right]
  | older hold =>
    obtain ⟨hi, hj⟩ := h.pairing.lt hold
    rw [h.left.older_eq _ hi, h.right.older_eq _ hj, h.pairing.view_eq hold]

theorem forall₂_stack : List.Forall₂ (o.Pairs p old) s.stack t.stack := by
  rw [h.left.stack_eq, h.right.stack_eq]
  exact h.pairing.forall₂_ids sc.stack

theorem rel_finds (key : Datum.Key) : Option.Rel (o.Pairs p old) (s.finds? key) (t.finds? key) := by
  rcases State.forall₂_visible h.viewOf_eq h.forall₂_stack with
    ⟨e, e', hs, ht⟩ | ⟨xs, ys, hs, ht, hvisible⟩
  · rw [State.finds?, State.finds?, hs, ht]
    exact .none
  · rw [State.finds?, State.finds?, hs, ht]
    exact State.rel_find? hvisible fun hij => (h.agree hij key).isSome_eq

theorem head?_stack {d : Nat} {ds : List Nat} (hstack : sc.stack = d :: ds) :
    s.stack.head? = some (o.size + d) ∧ t.stack.head? = some (p.size + d) := by
  rw [h.left.stack_eq, h.right.stack_eq, hstack]
  exact ⟨rfl, rfl⟩

theorem differentForks_eq {l r : Node} (hl : l ∈ cfg.root.nodes) (hr : r ∈ cfg.root.nodes) :
    t.differentForks cfg l r = s.differentForks cfg l r :=
  @State.differentForks_congr cfg s t (· ∈ cfg.root.nodes) h.map.mark_eq
    (fun n k hn => h.map.above n hn k) (fun _ _ => NodeOf.mem_nodes_of_child)
    cfg.root.self_mem_nodes _ _ hl hr

theorem keeps_eq {d : Nat} {x y : Option Binding} (hn : n ∈ cfg.root.nodes)
    (hxy : Binding.Agree cfg.root (o.sees (o.size + d)) (p.sees (p.size + d)) x y) :
    t.keeps cfg n y = s.keeps cfg n x := by
  cases hxy with
  | none => simp only [State.keeps, Option.any_none]
  | @some b c hkind hsource hused hin _ =>
    have hunused : c.isUnusedDefinition = b.isUnusedDefinition := by
      rw [Binding.isUnusedDefinition, Binding.isUnusedDefinition, hkind, Base.isUsed_eq_of_sees hused]
    have hapart : t.apart cfg n c.source = s.apart cfg n b.source := by
      rw [← hsource]
      cases hb : b.source with
      | node m => rw [State.apart, State.apart, h.differentForks_eq hn (hin m hb)]
      | _ => rfl
    simp only [State.keeps, Option.any_some, hunused, hapart]

theorem isIn_of_storeKind (hn : n ∈ cfg.root.nodes) {c : Scope} {key : Datum.Key}
    {kind : BindingKind} {source : Value}
    (hkind : storeKind c (s.parent? n) key n = .ok (kind, source)) :
    source.IsIn cfg.root := by
  unfold storeKind at hkind
  split at hkind
  · cases hkind
    exact Value.isIn_node hn
  · rename_i above hparent
    split at hkind
    · cases hkind
      exact Value.isIn_node hn
    · split at hkind
      · cases hget : above.get "value" with
        | error e =>
          rw [hget] at hkind
          cases hkind
        | ok v =>
          rw [hget] at hkind
          cases hkind
          obtain ⟨k, hk, hhead⟩ := Option.bind_eq_some_iff.mp hparent
          exact NodeOf.isIn_of_get hget (h.map.above n hn k hk above (mem_of_mem_head? hhead))
      · cases hkind
        exact Value.isIn_node hn

/-- A use of a name in the first scope, before it is bound there, is the same in both checks. -/
theorem rel_usedOutside (hstack : sc.stack = [0]) (key : Datum.Key) :
    Option.Rel (fun x y : Use × Binding => x.1.node = y.1.node ∧ x.2.source = y.2.source ∧
      x.1.node.IsIn cfg.root ∧ x.2.source.IsIn cfg.root)
      (s.usedOutside? o.size key) (t.usedOutside? p.size key) := by
  have hs : s.stack.tail = o.stack := by
    rw [h.left.stack_eq, hstack]
    rfl
  have ht : t.stack.tail = p.stack := by
    rw [h.right.stack_eq, hstack]
    rfl
  have hpairs := forall₂_reverse_iff.mpr h.pairing.open_pairs
  rw [State.usedOutside?, State.usedOutside?, hs, ht]
  generalize o.stack.reverse = xs at hpairs
  generalize p.stack.reverse = ys at hpairs
  induction hpairs with
  | nil => exact .none
  | @cons i j xs ys hij hrest ih =>
    obtain ⟨hi, hj⟩ := h.pairing.lt hij
    have hlends : s.isLending i = t.isLending j := by
      rw [← State.isLending_viewOf, h.viewOf_eq (.older hij), State.isLending_viewOf]
    have hagree := h.agree (.older hij) key
    rw [findSome?_cons, findSome?_cons, hlends]
    cases t.isLending j with
    | false => exact ih
    | true =>
      generalize s.binding? i key = x at hagree
      generalize t.binding? j key = y at hagree
      cases hagree with
      | none => exact ih
      | @some b c _ hsource hused hin hseen =>
        have hsees {q : Base} {i : Nat} (hi : i < q.size) (b : Binding) :
            (b.used.bind fun use => if use.scope = q.size then some (use, b) else none) =
              (b.used.filter (·.scope = q.size)).map (·, b) ∧
            b.used.bind (q.sees i) = (b.used.filter (·.scope = q.size)).map (·.node) := by
          cases b.used with
          | none => exact ⟨rfl, rfl⟩
          | some use =>
            by_cases huse : use.scope = q.size <;>
              simp [huse, Option.filter, Base.sees, Nat.not_le.mpr hi]
        rw [(hsees hi b).2, (hsees hj c).2] at hused
        rw [(hsees hi b).2] at hseen
        simp only [if_true, Option.bind_some, (hsees hi b).1, (hsees hj c).1]
        generalize b.used.filter (·.scope = o.size) = x at hused hseen
        generalize c.used.filter (·.scope = p.size) = y at hused
        cases x with
        | none =>
          cases y with
          | none => exact ih
          | some use => cases hused
        | some use =>
          cases y with
          | none => cases hused
          | some use' =>
            exact .some ⟨Option.some.inj hused, hsource, hseen _ rfl, hin⟩

variable (hopen : sc.stack ≠ [])

include hopen

theorem match_placing (hn : n ∈ cfg.root.nodes) {b c : Binding}
    (hname : b.name = c.name) (hkind : b.kind = c.kind) (hsource : b.source = c.source)
    (hused : b.isUsed = c.isUsed) (hin : b.source.IsIn cfg.root) :
    Event.Match cfg.root o p old (s.placing? cfg n b) (t.placing? cfg n c) := by
  obtain ⟨d, ds, hstack⟩ := exists_cons_of_ne_nil hopen
  obtain ⟨hs, ht⟩ := h.head?_stack hstack
  simp only [State.placing?, hs, ht, hname, Option.bind_eq_bind, Option.bind_some]
  cases c.name.key.toOption with
  | none => exact .none
  | some key =>
    simp only [Option.bind_some, h.keeps_eq hn (h.agree (.made d) key)]
    split
    · exact .none
    · exact .bound hkind hsource hused hin

/-- What a step does to bindings, it does in scopes that stand for each other. -/
theorem match_act (hn : n ∈ cfg.root.nodes) {a : Act}
    (ha : a.IsFrom n) : Event.Match cfg.root o p old (a.event? cfg s) (a.event? cfg t) := by
  obtain ⟨d, ds, hstack⟩ := exists_cons_of_ne_nil hopen
  obtain ⟨hs, ht⟩ := h.head?_stack hstack
  have hd : d < sc.made.length := h.left.bound d (by simp [hstack])
  cases a with
  | load v =>
    have hv : v.IsIn cfg.root := by
      rcases ha with rfl | htarget
      · exact Value.isIn_node hn
      · exact NodeOf.isIn_of_get htarget hn
    simp only [Act.event?, hs, ht, Option.bind_eq_bind]
    cases v.nameOf?.bind (·.key.toOption) with
    | none => exact .none
    | some key =>
      have hfinds := h.rel_finds key
      simp only [Option.bind_some]
      generalize s.finds? key = x at hfinds
      generalize t.finds? key = y at hfinds
      cases hfinds with
      | none => exact .none
      | some hij => exact .loaded hij hv
  | store m =>
    obtain rfl : m = n := ha
    have hview := h.viewOf_eq (.made d)
    have hagree := h.agree (.made d)
    have hscope {r : State} {q : Base} (hr : r.Shows q sc) :
        ∃ scope, r.scope? (q.size + d) = some scope ∧ scope.kind = (r.viewOf (q.size + d)).kind := by
      have hlt : q.size + d < r.scopes.size := by
        rw [hr.size_eq]
        omega
      refine ⟨r.scopes[q.size + d], Array.getElem?_eq_getElem hlt, ?_⟩
      rw [State.viewOf_of_scope (Array.getElem?_eq_getElem hlt)]
      rfl
    obtain ⟨c, hc, hckind⟩ := hscope h.left
    obtain ⟨c', hc', hckind'⟩ := hscope h.right
    have hparent : t.parent? m = s.parent? m := by
      rw [State.parent?, State.parent?, h.map.mark_eq m hn]
    have hkinds (key : Datum.Key) : storeKind c' (t.parent? m) key m =
        storeKind c (s.parent? m) key m := by
      simp only [storeKind, hparent, hckind, hckind', hview]
    simp only [Act.event?, hs, ht, hc, hc', Option.bind_eq_bind, Option.bind_some, hkinds]
    cases (Value.node m).nameOf? with
    | none => exact .none
    | some name =>
      simp only [Option.bind_some]
      cases name.key.toOption with
      | none => exact .none
      | some key =>
        simp only [Option.bind_some]
        cases hstore : (storeKind c (s.parent? m) key m).toOption with
        | none => exact .none
        | some found =>
          obtain ⟨kind, source⟩ := found
          refine h.match_placing hopen hn rfl rfl rfl ?_ ?_
          · have hused := hagree key
            generalize s.binding? (o.size + d) key = x at hused
            generalize t.binding? (p.size + d) key = y at hused
            cases hused with
            | none => rfl
            | some _ _ hused _ _ => exact Base.isUsed_eq_of_sees hused
          · cases hfound : storeKind c (s.parent? m) key m with
            | error e =>
              rw [hfound] at hstore
              cases hstore
            | ok found =>
              rw [hfound] at hstore
              cases hstore
              exact h.isIn_of_storeKind hn hfound
  | bind m b hidden =>
    obtain ⟨rfl, hnew⟩ := ha
    refine h.match_placing hopen hn rfl rfl rfl rfl ?_
    rw [hnew.source]
    exact Value.isIn_node hn
  | delete m =>
    have hview := h.viewOf_eq (.made d)
    simp only [Act.event?, hs, ht, Option.bind_eq_bind, Option.bind_some, hview]
    cases (Value.node m).nameOf?.bind (·.key.toOption) with
    | none => exact .none
    | some key =>
      simp only [Option.bind_some]
      split
      · exact .none
      · exact .deleted
  | _ => exact .none

theorem match_step {step : Step} (hstep : step.IsFrom cfg (· ∈ cfg.root.nodes)) :
    Event.Match cfg.root o p old (step.event? cfg s) (step.event? cfg t) := by
  match step with
  | .take n (.act a) => exact h.match_act hopen hstep.1 hstep.2.1
  | .take n (.future b) =>
    obtain ⟨d, ds, hstack⟩ := exists_cons_of_ne_nil hopen
    obtain ⟨hs, ht⟩ := h.head?_stack hstack
    simp only [Step.event?, hs, ht, Option.bind_eq_bind, Option.bind_some]
    refine h.match_placing hopen hstep.1 rfl rfl rfl rfl ?_
    have hsource : b.source = .node n := hstep.2.1.source
    change b.source.IsIn cfg.root
    rw [hsource]
    exact Value.isIn_node hstep.1
  | .enter _ _ | .leave _ | .take _ (.late _) | .take _ (.visit _) | .take _ (.opens _)
  | .take _ .closes | .take _ (.guards _) | .take _ .unguards | .take _ (.defers _) => exact .none

theorem early?_eq (step : Step) : step.early? t = step.early? s := by
  match step with
  | .take _ (.act (.store n)) =>
    obtain ⟨d, ds, hstack⟩ := exists_cons_of_ne_nil hopen
    obtain ⟨hs, ht⟩ := h.head?_stack hstack
    have hd : d < sc.made.length := h.left.bound d (by simp [hstack])
    simp only [Step.early?, State.usedBefore?, hs, ht, Option.bind_eq_bind, Option.bind_some,
      h.viewOf_eq (.made d)]
    cases (Value.node n).nameOf? with
    | none => rfl
    | some name =>
      simp only [Option.bind_some]
      cases name.key.toOption with
      | none => rfl
      | some key =>
        simp only [Option.bind_some]
        split
        · rename_i hcond
          have hfunction : (sc.view d).kind = .function := by
            rw [← h.right.view_eq d hd]
            exact hcond.1
          obtain ⟨rfl, rfl⟩ := h.inner.stack_eq hstack hd hfunction
          have hrel := h.rel_usedOutside hstack key
          rw [Nat.add_zero, Nat.add_zero]
          generalize s.usedOutside? o.size key = x at hrel
          generalize t.usedOutside? p.size key = y at hrel
          cases hrel with
          | none => rfl
          | some hxy =>
            obtain ⟨hnode, hsource, hnodeIn, hsourceIn⟩ := hxy
            simp only [Option.map_some, ← hnode, ← hsource, h.map.datumOf_eq hnodeIn,
              h.map.datumOf_eq hsourceIn]
        · rfl
  | .enter _ _ | .leave _ | .take _ (.late _) | .take _ (.visit _) | .take _ (.opens _)
  | .take _ .closes | .take _ (.guards _) | .take _ .unguards | .take _ (.defers _)
  | .take _ (.future _) | .take _ (.act (.load _)) | .take _ (.act (.delete _))
  | .take _ (.act (.bind _ _ _)) | .take _ (.act (.globals _)) | .take _ (.act (.locals _))
  | .take _ (.act (.star _ _)) | .take _ (.act (.callee _)) | .take _ (.act (.shadowing _ _))
  | .take _ (.act .lateImports) | .take _ (.act (.report _ _ _)) => rfl

/-- A step that both checks take keeps them abreast, and they give the same reports on names. -/
theorem step {s' t' : State} {step : Step} {off on : Bool}
    (hstep : step.IsFrom (cfg.withDoctests on) (· ∈ cfg.root.nodes)) (hplain : step.isDoctests = false)
    (hl : step.Leads (cfg.withDoctests off) s s') (hr : step.Leads (cfg.withDoctests on) t t') :
    Abreast cfg o p old (step.scene sc) s' t' ∧ ∃ new, s'.nameReports = s.nameReports ++ new ∧
      t'.nameReports = t.nameReports ++ new := by
  have hany (any : Setup) : step.IsFrom any (· ∈ cfg.root.nodes) := hstep.of_plain hplain
  constructor
  · refine ⟨hl.shows (hany _) h.left hopen, hr.shows hstep h.right hopen, h.pairing,
      Step.inner_scene h.inner hstep h.left.bound, fun {i j} hij key => ?_,
      h.map.step hstep h.depth_eq h.left_shift h.right_shift hl hr, ?_, ?_, ?_⟩
    · rw [hl.binding?_eq, hr.binding?_eq, Step.event?_withDoctests, Step.event?_withDoctests]
      exact (h.match_step hopen (hany _)).agree h.pairing hij key (h.agree hij key)
    · rw [hl.depth_eq, hr.depth_eq, h.depth_eq]
    · rw [hl.shift_eq, h.left_shift]
    · rw [hr.shift_eq, h.right_shift]
  · refine ⟨_, hl.nameReports_eq (hany _) h.left, ?_⟩
    rw [hr.nameReports_eq hstep h.right, h.early?_eq hopen, Step.missed?_withDoctests,
      Step.missed?_withDoctests, h.pairing.views_eq]
    congr 2
    refine map_congr_left fun x hx => ?_
    obtain ⟨v, name⟩ := x
    dsimp only
    rw [h.map.datumOf_eq (Step.mem_of_missed? (hany cfg) (covers_nodes _) (Option.mem_toList.mp hx))]

/-- What the second check alone puts off makes no difference. -/
theorem step_right {t' : State} {task : Task}
    (hstep : Step.IsFrom (cfg.withDoctests true) (· ∈ cfg.root.nodes) (.take n (.defers task)))
    (hr : Step.Leads (cfg.withDoctests true) t (.take n (.defers task)) t') :
    Abreast cfg o p old sc s t' ∧ t'.nameReports = t.nameReports := by
  have hshows := hr.shows hstep h.right hopen
  cases hr
  exact ⟨⟨h.left, hshows, h.pairing, h.inner, h.agree, ⟨h.map.mark_eq, h.map.above,
    h.map.position_eq⟩, h.depth_eq, h.left_shift, h.right_shift⟩, rfl⟩

end Abreast

namespace Step

variable {step : Step}

def isDoctestsTask (x : Task × List Nat) : Bool :=
  match x.1 with
  | .doctests _ => true
  | _ => false

theorem exists_of_isDoctests (h : step.isDoctests = true) :
    ∃ n m, step = .take n (.defers (.doctests m)) := by
  match step with
  | .take n (.defers (.doctests m)) => exact ⟨n, m, rfl⟩

theorem put_filter (steps : List Step) : put sc (steps.filter (!·.isDoctests)) =
    (put sc steps).filter (!isDoctestsTask ·) := by
  induction steps generalizing sc with
  | nil => rfl
  | cons step rest ih =>
    by_cases hstep : step.isDoctests = true
    · obtain ⟨n, m, rfl⟩ := exists_of_isDoctests hstep
      exact ih
    · rw [filter_cons, if_pos (by simpa using hstep), put, ih, put, filter_append]
      congr 1
      cases step with
      | enter | leave => rfl
      | take _ op =>
        cases op with
        | defers task =>
          cases task with
          | doctests => exact absurd rfl hstep
          | _ => rfl
        | _ => rfl

end Step

/-- Two checks that take the steps of a part of the tree, one of them without the work on docstrings,
stay abreast, and they give the same reports on names. -/
theorem Abreast.runAll {s t s' t' : State} {steps : List Step} {k k' : Nat}
    (h : Abreast cfg o p old sc s t)
    (hsteps : ∀ step ∈ steps, step.IsFrom (cfg.withDoctests true) (· ∈ cfg.root.nodes))
    (hheight : Step.height? k steps = some k') (hlength : sc.stack.length = k + 1)
    (hl : Step.runAll (cfg.withDoctests false) (steps.filter (!·.isDoctests)) s = .ok () s')
    (hr : Step.runAll (cfg.withDoctests true) steps t = .ok () t') :
    Abreast cfg o p old (Step.sceneAfter sc steps) s' t' ∧
      ∃ new, s'.nameReports = s.nameReports ++ new ∧ t'.nameReports = t.nameReports ++ new := by
  induction steps generalizing s t sc k with
  | nil =>
    cases hl
    cases hr
    exact ⟨h, [], by simp⟩
  | cons step rest ih =>
    obtain ⟨hstep, hrest⟩ := forall_mem_cons.mp hsteps
    obtain ⟨u, hfirst, hlater⟩ := Step.runAll_cons_eq_ok.mp hr
    rw [Step.height?_cons] at hheight
    obtain ⟨j, hj, hheight⟩ := Option.bind_eq_some_iff.mp hheight
    have hleads := leads_of_run hstep hfirst
    have hopen : sc.stack ≠ [] := by
      intro hnil
      rw [hnil] at hlength
      cases hlength
    have hlength' := Step.length_scene hj hlength
    by_cases hdoctests : step.isDoctests = true
    · obtain ⟨n, m, rfl⟩ := Step.exists_of_isDoctests hdoctests
      obtain ⟨habreast, hreports⟩ := h.step_right hopen hstep hleads
      cases hj
      rw [← hreports]
      exact ih habreast hrest hheight hlength hl hlater
    · rw [filter_cons, if_pos (by simpa using hdoctests)] at hl
      obtain ⟨r, hfirst', hlater'⟩ := Step.runAll_cons_eq_ok.mp hl
      have hplain : step.isDoctests = false := by simpa using hdoctests
      have hleads' := leads_of_run (hstep.of_plain hplain) hfirst'
      obtain ⟨habreast, new, hs, ht⟩ := h.step hopen hstep hplain hleads' hleads
      obtain ⟨hend, more, hs', ht'⟩ := ih habreast hrest hheight hlength' hlater' hlater
      refine ⟨hend, new ++ more, ?_, ?_⟩
      · rw [hs', hs, append_assoc]
      · rw [ht', ht, append_assoc]

end ScopeLint
