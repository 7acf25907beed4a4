import ScopeLint.Proofs.Checker.Confinement

/-! # The moments at which nodes are visited

A run visits the tree, and then the bodies of functions and the examples of docstrings that were put
off. What is visited below a node is what its script tells, in this order. -/
namespace ScopeLint

open Check List

namespace NodeOf

/-- The names of exceptions that the handlers of a node catch. -/
def caught (n : Node) : List Datum :=
  (do (← n.itemsOf "handlers").mapM caughtNames : Except Fault _).toOption.getD [] |>.flatten

/-- Whether the node is a `try` with `k` in its body. -/
def guards (n k : Node) : Bool :=
  Rule.of? n.kind == some .tryBlock &&
    (do (← n.get "body").holds k : Except Fault _).toOption.getD false

end NodeOf

variable {cfg : Setup} {n : Node} {s t : State}

/-- What the steps of a rule keep and the visits below keep, its script keeps. What is kept may depend
on the steps that are still to come. -/
theorem Op.runAll_invariant {P : List Op → State → Prop} {below : Visit} {ops : List Op}
    (hstep : ∀ op rest r t, Step.Leads cfg r (.take n op) t → P (op :: rest) r → P rest t)
    (hvisit : ∀ v before rest r t, ops = before ++ .visit v :: rest →
      Op.runAll cfg below n before s = .ok () r → below v n r = .ok () t →
      P (.visit v :: rest) r → P rest t)
    (hfrom : ∀ op ∈ ops, (∀ v, op ≠ .visit v) → op.IsFrom cfg n)
    (h : Op.runAll cfg below n ops s = .ok () t) (hs : P ops s) : P [] t := by
  have hall (done rest : List Op) (r : State) (hsplit : ops = done ++ rest)
      (hdone : Op.runAll cfg below n done s = .ok () r)
      (hrest : Op.runAll cfg below n rest r = .ok () t) (hr : P rest r) : P [] t := by
    induction rest generalizing done r with
    | nil =>
      cases hrest
      exact hr
    | cons op rest ih =>
      obtain ⟨_, u, hop, hrest⟩ := bind_apply_eq_ok.mp hrest
      have hnext : Op.runAll cfg below n (done ++ [op]) s = .ok () u := by
        rw [Op.runAll_append]
        exact bind_apply_eq_ok.mpr ⟨(), r, hdone, bind_apply_eq_ok.mpr ⟨(), u, hop, rfl⟩⟩
      refine ih (done ++ [op]) u (by simp [hsplit]) hnext hrest ?_
      have hplain (hne : ∀ v, op ≠ .visit v) (hrun : Step.run cfg (.take n op) r = .ok () u) :
          P rest u := by
        have hof : Step.IsOf cfg (fun _ => True) (fun _ _ => True) (.take n op) :=
          ⟨trivial, hfrom op (by simp [hsplit]) hne, hne⟩
        exact hstep op rest r u (leads_of_run hof hrun) hr
      cases op with
      | visit v => exact hvisit v done rest r u hsplit hdone hop hr
      | _ => exact hplain (fun _ h => nomatch h) hop
  exact hall [] ops s rfl rfl h hs

theorem Check.course_visitWithin {fuel : Nat} {v : Value}
    (h : visitWithin cfg fuel v n s = .ok () t) : Course cfg n [v] s t :=
  (follows_visitWithin fuel List.mem_cons_self).ok h

theorem Check.course_visitAll {vs : List Value} (h : visitAll (visit cfg) n vs s = .ok () t) :
    Course cfg n vs s t :=
  (ends_forM fun v hv => follows_visitWithin v.size hv).ok h

theorem Step.Leads.futures {step : Step} (h : step.Leads cfg s t) (ht : t.futuresAllowed = true) :
    s.futuresAllowed = true := by
  cases h with
  | enter _ _ _ hallowed => exact (Bool.and_eq_true_iff.mp (hallowed ▸ ht)).1
  | leave | opens | closes | guards | unguards | defers => exact ht
  | @act n a _ ha => exact ((a.run_mild cfg).ok ha).futures ht
  | late _ hspeech => exact hspeech.alike.futures ht
  | future _ _ hbind => exact ((mild_bind _ _ _ _).ok hbind).futures ht

namespace Setup

variable (cfg : Setup) (next : Nat)

/-- Where values are visited that were put off: the node that they are below, the values, and the state
before the first of them. -/
inductive Resumes : Node → List Value → State → Prop
  | body {s r t : State} {i : Nat} {d : Deferred} {n : Node} {names : List Datum} :
      visitChildren (visit cfg) cfg.root (State.initial next) = .ok () s →
      Strokes cfg .functions s r → r.Entry .functions i d → d.task = .body n names →
      bindParameters cfg n names ((r.resumed .functions i d).opened .function) = .ok () t →
      Resumes n n.deferred t
  | tree {s r t : State} {i : Nat} {d : Deferred} {tree top : Node} (shift : Shift) :
      visitChildren (visit cfg) cfg.root (State.initial next) = .ok () s →
      Strokes cfg .functions s r → r.Entry .functions i d →
      Examples cfg ((r.resumed .functions i d).opened .function) t →
      top = (tree.numbered t.nextNode).1 →
      Resumes top (top.children.map .node) (t.forExample tree shift)

/-- A node is visited: the statements of the module before it, if it is a statement of the module
itself, the names that are caught around it, innermost handlers first, the node, and the state in
which its rule is applied. -/
inductive Dispatches : Option (List Node) → List (List Datum) → Node → State → Prop
  | top {before after : List Node} {n : Node} {r e : State} :
      cfg.root.children = before ++ n :: after →
      visitAll (visit cfg) cfg.root (before.map .node) (State.initial next) = .ok () r →
      enterNode cfg n cfg.root r = .ok () e → Dispatches (some before) [] n e
  | later {p n : Node} {before after : List Value} {s r e : State} :
      Resumes cfg next p (before ++ .node n :: after) s →
      visitAll (visit cfg) p before s = .ok () r →
      enterNode cfg n p r = .ok () e → Dispatches none [] n e
  | inner {place : Option (List Node)} {guards : List (List Datum)} {p n : Node} {d r e : State}
      {fuel : Nat} {before after : List Op} : Dispatches place guards p d →
      p.script cfg = .ok ((), before ++ .visit (.node n) :: after) →
      Op.runAll cfg (visitWithin cfg fuel) p before d = .ok () r →
      enterNode cfg n p r = .ok () e →
      Dispatches none (if p.guards n then p.caught :: guards else guards) n e

/-- The rule for a node is applied in the run, which gets through with it. -/
def Handled (n : Node) : Prop :=
  ∃ place guards fuel e u, Dispatches cfg next place guards n e ∧
    handleNode cfg (visitWithin cfg fuel) n e = .ok () u

/-- What is dispatched between the two states is handled. -/
def Covers (s t : State) : Prop := ∀ n ∈ t.dispatched, n ∈ s.dispatched ∨ Handled cfg next n

variable {cfg next} {p : Node} {r : State}

theorem Covers.of_eq (h : t.marks = s.marks) : cfg.Covers next s t := by
  intro n hn
  rw [State.dispatched, h] at hn
  exact .inl hn

theorem Covers.trans (h : cfg.Covers next s r) (k : cfg.Covers next r t) : cfg.Covers next s t :=
  fun n hn => (k n hn).elim (h n) .inr

theorem covers_runAll {below : Visit} {ops : List Op}
    (hfrom : ∀ op ∈ ops, (∀ v, op ≠ .visit v) → op.IsFrom cfg p)
    (hvisit : ∀ v before after r u, ops = before ++ .visit v :: after →
      Op.runAll cfg below p before s = .ok () r → below v p r = .ok () u → cfg.Covers next r u)
    (h : Op.runAll cfg below p ops s = .ok () t) : cfg.Covers next s t := by
  refine Op.runAll_invariant (P := fun _ r => cfg.Covers next s r)
    (fun op _ _ _ hleads hr => hr.trans (.of_eq ?_))
    (fun v before after r u hsplit hbefore hbelow hr =>
      hr.trans (hvisit v before after r u hsplit hbefore hbelow)) hfrom h (.of_eq rfl)
  exact hleads.marks_eq

/-- The visit of a node covers what is visited below it, by induction on how deep it can go. -/
theorem covers_visitWithin {fuel : Nat} {v : Value} (hp : p.Distinct)
    (hv : ∀ n, v = .node n → n ∈ p.nodes) (hat : ∀ n e, v = .node n →
      enterNode cfg n p s = .ok () e → ∃ place guards, cfg.Dispatches next place guards n e)
    (h : visitWithin cfg fuel v p s = .ok () t) : cfg.Covers next s t := by
  induction fuel generalizing v p s t with
  | zero =>
    cases v with
    | null =>
      cases h
      exact .of_eq rfl
    | _ => cases h
  | succ fuel ih =>
    cases v with
    | null =>
      cases h
      exact .of_eq rfl
    | node n =>
      obtain ⟨_, e, u, hfuel, henter, hhandle, -, trace, rfl⟩ := visitWithin_eq_ok h
      cases hfuel
      have hn := hv n rfl
      obtain ⟨place, guards, hd⟩ := hat n e rfl henter
      obtain ⟨ops, hscript, hrun⟩ := handleNode_eq_ok.mp hhandle
      have hbelow : cfg.Covers next e u := by
        refine covers_runAll (fun op hop _ => n.isFrom_script cfg () _ hscript op hop)
          (fun v before after r w hsplit hbefore hvisit => ?_) hrun
        subst hsplit
        have hmem := NodeOf.mem_taken_of_visit hscript (mem_append_right _ mem_cons_self)
        exact ih (hp.part hn) (fun m hm => NodeOf.mem_nodes_of_mem_taken (hm ▸ hmem))
          (fun m e' hm he' => ⟨_, _, .inner hd (hm ▸ hscript) hbefore he'⟩) hvisit
      have hentered : e.dispatched = n :: s.dispatched := by
        cases leads_of_enterNode henter
        exact State.dispatched_entered _ hp hn
      intro k hk
      rcases hbelow k hk with hk | hk
      · rcases mem_cons.mp (hentered ▸ hk) with rfl | hk
        · exact .inr ⟨place, guards, fuel, e, u, hd, hhandle⟩
        · exact .inl hk
      · exact .inr hk
    | _ => exact (refuse_ne_ok _ _ _ _ h).elim

theorem covers_visitAll {vs : List Value} (hp : p.Distinct) (hvs : ∀ m, .node m ∈ vs → m ∈ p.nodes)
    (hat : ∀ n before after r e, vs = before ++ .node n :: after →
      visitAll (visit cfg) p before s = .ok () r → enterNode cfg n p r = .ok () e →
      ∃ place guards, cfg.Dispatches next place guards n e)
    (h : visitAll (visit cfg) p vs s = .ok () t) : cfg.Covers next s t := by
  have hmap (ws : List Value) : Op.runAll cfg (visit cfg) p (ws.map .visit) =
    visitAll (visit cfg) p ws := forM_map
  rw [← hmap] at h
  refine covers_runAll (fun op hop hne => ?_)
    (fun v before after r u hsplit hbefore hvisit => ?_) h
  · obtain ⟨v, -, rfl⟩ := mem_map.mp hop
    exact absurd rfl (hne v)
  · obtain ⟨first, rest, rfl, rfl, hrest⟩ := map_eq_append_iff.mp hsplit
    obtain ⟨_, rest, rfl, hw, -⟩ := map_eq_cons_iff.mp hrest
    cases hw
    rw [hmap] at hbefore
    exact covers_visitWithin hp (fun n hn => hvs n (by simp [hn]))
      (fun n e hn he => hat n first rest r e (by rw [hn]) hbefore he) hvisit

theorem covers_visitChildren (hp : p.Distinct)
    (hat : ∀ n before after r e, p.children.map Value.node = before ++ .node n :: after →
      visitAll (visit cfg) p before s = .ok () r → enterNode cfg n p r = .ok () e →
      ∃ place guards, cfg.Dispatches next place guards n e)
    (h : visitChildren (visit cfg) p s = .ok () t) : cfg.Covers next s t := by
  refine covers_visitAll hp (fun m hm => ?_) hat (visitAll_children (visit cfg) p ▸ h)
  obtain ⟨c, hc, heq⟩ := mem_map.mp hm
  cases heq
  exact NodeOf.mem_nodes_of_mem_children hc

theorem confines_distinct (cfg : Setup) (next : Nat) : cfg.Confines next NodeOf.Distinct where
  taken := fun _ _ hn hm => hn.part (NodeOf.mem_nodes_of_mem_taken hm)
  deferred := fun _ _ hn _ hm =>
    hn.part (NodeOf.mem_nodes_of_mem_children (NodeOf.mem_children_of_deferred hm))
  fresh := fun _ _ hn _ hm => hn.part (NodeOf.mem_nodes_of_mem_children hm)

/-- Bodies are put off with trees that share no nodes, what has been put off is resumed in turn, and
what has been dispatched is handled. -/
structure Tracks (cfg : Setup) (next : Nat) (s : State) : Prop where
  confined : s.Confined next NodeOf.Distinct
  resumed : ∃ r, visitChildren (visit cfg) cfg.root (State.initial next) = .ok () r ∧
    Strokes cfg .functions r s
  handled : ∀ n ∈ s.dispatched, cfg.Handled next n

theorem tracks_of_walk (hroot : cfg.root.Distinct)
    (hwalk : visitChildren (visit cfg) cfg.root (State.initial next) = .ok () s) :
    cfg.Tracks next s where
  confined := confined_walk (confines_distinct cfg next)
    (fun m hm => hroot.part (NodeOf.mem_nodes_of_mem_children hm)) hwalk
  resumed := ⟨s, hwalk, .refl⟩
  handled := by
    have hcovers : cfg.Covers next (State.initial next) s := by
      refine covers_visitChildren hroot (fun n before after r e hsplit hbefore henter => ?_) hwalk
      obtain ⟨first, rest, hchildren, rfl, hrest⟩ := map_eq_append_iff.mp hsplit
      obtain ⟨_, rest, rfl, hw, -⟩ := map_eq_cons_iff.mp hrest
      cases hw
      exact ⟨_, _, .top hchildren hbefore henter⟩
    exact fun n hn => (hcovers n hn).elim (fun hn => by cases hn) id

section Tasks

variable {i : Nat} {d : Deferred} (hs : cfg.Tracks next s) (he : s.Entry .functions i d)
  (htask : runTask cfg (visit cfg) d.task (s.resumed .functions i d) = .ok () t)

include hs he htask

theorem Tracks.covers : cfg.Covers next (s.resumed .functions i d) t := by
  obtain ⟨start, hwalk, hstrokes⟩ := hs.resumed
  refine runTask_visits (P := cfg.Covers next _) (fun _ _ h hs => hs.trans (.of_eq h.marks_eq))
    (fun n names r u hbody hparameters hvisit hr => ?_)
    (fun n text examples e tree shift r u _ _ _ _ _ hdone hvisit hr => ?_) htask (.of_eq rfl)
  · have hmem := mem_of_getElem? (entry_iff_queued.mp he)
    have hmarks := ((mild_bindParameters cfg n names).ok hparameters).marks_eq
    refine (hr.trans (.of_eq hmarks)).trans (covers_visitAll (hs.confined.bodies d hmem n names hbody).2
      (fun m hm => NodeOf.mem_nodes_of_mem_children (NodeOf.mem_children_of_deferred hm)) ?_ hvisit)
    intro m before after r' e hsplit hbefore henter
    have hresumes := Resumes.body hwalk hstrokes he hbody hparameters
    exact ⟨_, _, .later (hsplit ▸ hresumes) hbefore henter⟩
  · refine hr.trans (Covers.trans (r := r.forExample tree shift) (.of_eq rfl)
      (covers_visitChildren (NodeOf.numberedFrom r.nextNode tree).nodup ?_ hvisit))
    intro m before after r' e hsplit hbefore henter
    have hresumes : cfg.Resumes next (tree.numbered r.nextNode).1 _ (r.forExample tree shift) :=
      .tree shift hwalk hstrokes he hdone rfl
    exact ⟨_, _, .later (hsplit ▸ hresumes) hbefore henter⟩

theorem Tracks.task : cfg.Tracks next t where
  confined := confined_task (confines_distinct cfg next) hs.confined he htask
  resumed := by
    obtain ⟨r, hwalk, hstrokes⟩ := hs.resumed
    exact ⟨r, hwalk, hstrokes.trans (strokes_of_task he htask)⟩
  handled := fun n hn => (hs.covers he htask n hn).elim (hs.handled n) id

end Tasks

/-- Every node that a run dispatches is handled at one of its moments. -/
theorem handled_of_explore (hroot : cfg.root.Distinct)
    (h : explore cfg (State.initial next) = .ok () t) : ∀ n ∈ t.dispatched, cfg.Handled next n := by
  obtain ⟨_, hend, -⟩ := explore_preserves (P := fun _ => cfg.Tracks next)
    (fun _ _ _ _ hs he htask => hs.task he htask) (fun _ => tracks_of_walk hroot) h
  exact hend.handled

end Setup

end ScopeLint
