import ScopeLint.Proofs.Checker.Excerpts

/-! # Every example is taken up

The examples of a docstring are taken up one after another, each with its tree or with a report that
it cannot be read. When the queue has been gone through, this has been done for every docstring of a
definition that has been put off. -/
namespace ScopeLint

open List

variable {cfg : Setup} {next i : Nat} {xs : List Excerpt} {s t : State} {n tree : Node}
  {x : Excerpt} {line : Datum} {d : Deferred}

namespace State

/-- Each example that cannot be read has been reported where it goes wrong. -/
def Reports (xs : List Excerpt) (s : State) : Prop :=
  ∀ x ∈ xs, ∀ message line offset text, x.outcome = .syntaxError message line offset text →
    ∃ d position, d.IsOf x.definition ∧
      Check.doctestPosition x.line x.item line offset = .ok position ∧
      .reported .doctestSyntaxError [d, position] ∈ s.history

/-- The examples that a run has taken up, where nothing has failed. -/
structure Shelves (cfg : Setup) (next : Nat) (xs : List Excerpt) (s : State) : Prop
    extends Filed cfg next xs s where
  reports : s.Reports xs

/-- The examples that a run has taken up, also where something has failed. -/
structure Leaves (cfg : Setup) (next : Nat) (xs : List Excerpt) (s : State) : Prop
    extends Files cfg next xs s where
  reports : s.Reports xs

variable {text : String}

theorem Reports.mono (h : s.Reports xs) (hsub : s.history ⊆ t.history) : t.Reports xs := by
  intro x hx message line offset text houtcome
  obtain ⟨d, position, hd, hposition, hmem⟩ := h x hx message line offset text houtcome
  exact ⟨d, position, hd, hposition, hsub hmem⟩

theorem Reports.cons_of_tree (h : s.Reports xs) (hx : x.outcome = .tree tree) :
    s.Reports (x :: xs) := by
  refine forall_mem_cons.mpr ⟨fun message line offset text houtcome => ?_, h⟩
  cases hx.symm.trans houtcome

theorem Says.shelves {kinds : List Kind} (h : s.Says kinds t) (hs : s.Shelves cfg next xs) :
    t.Shelves cfg next xs :=
  ⟨h.fixed.filed hs.toFiled, hs.reports.mono h.history_subset⟩

theorem isNull_of_lineAbove {above : Datum} {breaks : Nat} (h : lineAbove line breaks = .ok above) :
    line.isNull = false := by
  cases line with
  | null => cases h
  | _ => rfl

/-- A docstring in an example that has been visited stands where its example has been moved to. -/
theorem Filed.docLine (h : s.Filed cfg next xs) (hnodup : s.movedIds.Nodup) (hx : x ∈ xs)
    (hn : n ∈ x.nodes) (hseen : s.SeenDoc n) {own : Shift} (hown : x.shift = .ok own)
    (hdoc : s.docstringOf n = .ok (some (text, line))) : n.DocLine own.move line := by
  obtain ⟨doc, q, hnode, hq, habove⟩ := docstringOf_place hdoc
  have htext : n.docText = some text := (docstringOf_eq_ok hdoc).symm
  have hmem : doc ∈ x.nodes := by
    unfold Excerpt.nodes at hn ⊢
    split at hn
    · exact (NodeOf.sublist_of_mem_nodes _ hn).subset (NodeOf.docNode?_mem_nodes hnode)
    · cases hn
  have hplaced := h.placed x hx doc hmem (hseen doc hnode)
  by_cases hmoved : doc.id ∈ s.movedIds
  · obtain ⟨p, hp, hnull⟩ := h.lined x hx doc hmem hmoved
    rcases hplaced p hp hnull with hmany | ⟨own', p', hown', hmove, hlookup⟩
    · exact absurd (nodup_iff_count_le_one.mp hnodup doc.id) (Nat.not_le_of_lt hmany)
    · cases hown.symm.trans hown'
      rw [position?, hlookup] at hq
      cases hq
      exact ⟨doc, p, _, text, hnode, hp, hmove, htext, habove⟩
  · rw [position?, lookup_of_notMem_movedIds hmoved] at hq
    rcases hplaced q hq (isNull_of_lineAbove habove) with hmany | ⟨_, _, _, _, hlookup⟩
    · exact absurd (count_pos_iff.mp (Nat.lt_trans Nat.zero_lt_one hmany)) hmoved
    · exact absurd (mem_movedIds_of_lookup hlookup) hmoved

theorem Filed.stems (h : s.Filed cfg next xs) (hnum : cfg.Numbered next) (hnodup : s.movedIds.Nodup)
    (hhome : cfg.Home xs s.shift n) (hseen : s.SeenDoc n)
    (hdoc : s.docstringOf n = .ok (some (text, line))) (e : Example) (outcome : Outcome) :
    Excerpt.Stems cfg xs ⟨n, s.shift.getD (.of 0 0), line, e, outcome⟩ := by
  rcases hhome with ⟨hnone, hn⟩ | ⟨x, hx, hn, own, hown, hshift⟩
  · left
    obtain ⟨doc, p, hnode, hp, habove⟩ := docstringOf_place hdoc
    have hmem : doc ∈ cfg.root.nodes :=
      (NodeOf.sublist_of_mem_nodes cfg.root hn).subset (NodeOf.docNode?_mem_nodes hnode)
    rw [position?_of_unmoved h (hnum.bounded doc hmem)] at hp
    refine ⟨hn, by rw [hnone]; rfl, doc, p, p, text, hnode, hp, rfl, ?_, habove⟩
    exact (docstringOf_eq_ok hdoc).symm
  · right
    rw [hshift]
    exact ⟨h.docLine hnodup hx hn hseen hown hdoc, x, hx, hown, hn⟩

variable (h : s.Shelves cfg next xs)

include h

theorem Shelves.leaves : s.Leaves cfg next xs :=
  ⟨h.toFiles, h.reports⟩

/-- Nothing but the numbers, the marks, the moves, the put-off work on definitions and the record
counts. -/
theorem Shelves.of_eq (hnext : t.nextNode = s.nextNode)
    (hmarks : t.marks = s.marks) (hmoved : t.moved = s.moved)
    (hentry : ∀ q i d n, t.Entry q i d → d.task.owner? = some n → s.Entry q i d)
    (hhistory : s.history ⊆ t.history) : t.Shelves cfg next xs :=
  ⟨h.toFiled.of_eq hnext hmarks hmoved hentry, h.reports.mono hhistory⟩

theorem Shelves.resumed (q : Queue) (i : Nat) (d : Deferred) :
    (s.resumed q i d).Shelves cfg next xs :=
  h.of_eq rfl rfl rfl (fun q _ _ _ hd _ => by cases q <;> exact hd) (List.Subset.refl _)

theorem Shelves.opened (kind : ScopeKind) : (s.opened kind).Shelves cfg next xs :=
  h.of_eq rfl rfl rfl (fun q _ _ _ hd _ => by cases q <;> exact hd) (List.Subset.refl _)

theorem Shelves.closed (id : ScopeId) (rest : List ScopeId) :
    (s.closed id rest).Shelves cfg next xs :=
  h.of_eq rfl rfl rfl (fun q _ _ _ hd _ => by cases q <;> exact hd) (List.Subset.refl _)

end State

section Courses

variable {vs : List Value}

theorem Course.shelves (h : Course cfg n vs s t) (hnum : cfg.Numbered next)
    (hn : cfg.Home xs s.shift n) (hvs : ∀ m, .node m ∈ vs → cfg.Home xs s.shift m)
    (hs : s.Shelves cfg next xs) : t.Shelves cfg next xs :=
  ⟨h.filed hnum hn hvs hs.toFiled, hs.reports.mono h.lasts.history.subset⟩

theorem Cut.leaves (h : Cut cfg n vs s t) (hnum : cfg.Numbered next) (hn : cfg.Home xs s.shift n)
    (hvs : ∀ m, .node m ∈ vs → cfg.Home xs s.shift m) (hs : s.Shelves cfg next xs) :
    t.Leaves cfg next xs := by
  obtain ⟨es, hes, -⟩ := h.moves.history fun _ _ _ => trivial
  exact ⟨h.files hnum hn hvs hs.toFiled, hs.reports.mono (hes ▸ subset_append_right _ _)⟩

end Courses

/-- Each example of the docstring of `n` has been taken up. -/
def NodeOf.TakenUp (n : Node) (xs : List Excerpt) : Prop :=
  ∀ text examples, n.docText = some text → Doctest.examples? text = some examples →
    ∀ e ∈ examples, ∃ x ∈ xs, x.definition = n ∧ x.item = e

theorem NodeOf.TakenUp.mono {xs ys : List Excerpt} (h : n.TakenUp xs) (hsub : xs ⊆ ys) :
    n.TakenUp ys := by
  intro text examples htext hexamples e he
  obtain ⟨x, hx, hrest⟩ := h text examples htext hexamples e he
  exact ⟨x, hsub hx, hrest⟩

/-- The text is the docstring of a definition and has the examples. -/
def NodeOf.HasExamples (n : Node) (examples : List Example) : Prop :=
  ∃ text, n.docText = some text ∧ Doctest.examples? text = some examples

namespace Check

section Examples

variable {base : Shift} {e : Example} {examples : List Example} {fault : Fault} {es : List Example}

private theorem shelves_forExample (hs : s.Shelves cfg next xs) (hexamples : n.HasExamples examples)
    (he : e ∈ examples) (htree : cfg.compile e.source = .tree tree) (shift : Shift)
    (hstems : Excerpt.Stems cfg xs ⟨n, base, line, e, .tree (tree.numbered s.nextNode).1⟩) :
    (s.forExample tree shift).Shelves cfg next
      (⟨n, base, line, e, .tree (tree.numbered s.nextNode).1⟩ :: xs) := by
  obtain ⟨text, htext, hexamples⟩ := hexamples
  have hnumbers := NodeOf.numberedFrom s.nextNode tree
  have hfrom : Excerpt.IsFrom cfg ⟨n, base, line, e, .tree (tree.numbered s.nextNode).1⟩ :=
    ⟨⟨text, examples, htext, hexamples, he⟩, s.nextNode, htree ▸ rfl⟩
  refine ⟨hs.toFiled.add hfrom hstems hnumbers.1 (fun m hm => hnumbers.bounds hm) rfl rfl ?_,
    hs.reports.cons_of_tree rfl⟩
  exact fun q => by cases q <;> rfl

private theorem home_of_example (htree : x.outcome = .tree tree) {shift : Shift}
    (hshift : x.shift = .ok shift) : cfg.Home (x :: xs) (some shift) tree := by
  refine .inr ⟨x, mem_cons_self, ?_, shift, hshift, rfl⟩
  rw [Excerpt.nodes, htree]
  exact tree.self_mem_nodes

private theorem home_of_children {shift : Option Shift} (h : cfg.Home xs shift n) {m : Node}
    (hm : .node m ∈ n.children.map Value.node) : cfg.Home xs shift m := by
  obtain ⟨c, hc, heq⟩ := mem_map.mp hm
  cases heq
  exact h.part (NodeOf.mem_nodes_of_mem_children hc)

variable (hnum : cfg.Numbered next) (hs : s.Shelves cfg next xs)
  (hexamples : n.HasExamples examples)

include hnum hs hexamples

/-- What an example leaves behind: it has been taken up, or something has failed. -/
theorem shelves_runExample (he : e ∈ examples)
    (hstems : ∀ outcome, Excerpt.Stems cfg xs ⟨n, base, line, e, outcome⟩) :
    Lands (fun t => ∃ outcome, t.Shelves cfg next (⟨n, base, line, e, outcome⟩ :: xs))
      (fun t => ∃ more, t.Leaves cfg next (more ++ xs))
      (runExample cfg (visit cfg) n base line e) s := by
  have hfollows (tree : Node) : Follows cfg tree (tree.children.map .node)
      (visitChildren (visit cfg) tree) :=
    follows_visitChildren (fun _ hv => follows_visit hv) fun _ hv => hv
  refine lands_of (fun _ t h => ?_) fun fault t h => ?_
  · rcases runExample_eq_ok h with ⟨tree, htree, h⟩ |
      ⟨message, row, offset, text, position, herror, hposition, h⟩
    · obtain ⟨shift, u, hshift, hvisit, rfl⟩ := visitExample_eq_ok h
      refine ⟨.tree (tree.numbered s.nextNode).1, ?_⟩
      have hstart := shelves_forExample hs hexamples he htree shift (hstems _)
      have hhome : cfg.Home (_ :: xs) (s.forExample tree shift).shift (tree.numbered s.nextNode).1 :=
        home_of_example (x := ⟨n, base, line, e, .tree (tree.numbered s.nextNode).1⟩) rfl hshift
      have hend := ((hfollows _).ok hvisit).shelves hnum hhome
        (fun m hm => home_of_children hhome hm) hstart
      exact hend.of_eq rfl rfl rfl (fun q _ _ _ hd _ => by cases q <;> exact hd)
        (List.Subset.refl _)
    · obtain ⟨content, hcontent, hall⟩ := hexamples
      have hspeech : s.Says [.doctestSyntaxError] t :=
        (speaks_reportWith cfg (mem_singleton.mpr rfl) _ _).ok h
      have hfrom : Excerpt.IsFrom cfg ⟨n, base, line, e, .syntaxError message row offset text⟩ :=
        ⟨⟨content, examples, hcontent, hall, he⟩, 0, by rw [herror]; rfl⟩
      have hadded := hs.toFiled.add (t := s) hfrom (hstems _) (Nat.le_refl _)
        (fun m hm => nomatch hm) rfl rfl fun _ => rfl
      refine ⟨_, hspeech.fixed.filed hadded, ?_⟩
      refine forall_mem_cons.mpr ⟨?_, hs.reports.mono hspeech.history_subset⟩
      rintro message' row' offset' text' houtcome
      cases houtcome
      refine ⟨_, position, s.isOf_datumOf n, hposition, ?_⟩
      rw [reportWith_eq_ok h]
      exact mem_cons_self
  · obtain rfl | ⟨tree, htree, h⟩ | ⟨args, h⟩ := runExample_eq_error h
    · exact ⟨[], hs.leaves⟩
    · obtain rfl | ⟨shift, hshift, hvisit⟩ := visitExample_eq_error h
      · exact ⟨[], hs.leaves⟩
      · have hstart := shelves_forExample hs hexamples he htree shift (hstems _)
        have hhome : cfg.Home (_ :: xs) (s.forExample tree shift).shift
            (tree.numbered s.nextNode).1 :=
          home_of_example (x := ⟨n, base, line, e, .tree (tree.numbered s.nextNode).1⟩) rfl hshift
        exact ⟨[_], ((hfollows _).fail hvisit).leaves hnum hhome
          (fun m hm => home_of_children hhome hm) hstart⟩
    · have hspeech : s.Says [.doctestSyntaxError] t :=
        (speaks_reportWith cfg (mem_singleton.mpr rfl) _ _).fail h
      exact ⟨[], (hspeech.shelves hs).leaves⟩

theorem shelves_examples (hstems : ∀ e outcome, Excerpt.Stems cfg xs ⟨n, base, line, e, outcome⟩)
    (hes : es ⊆ examples) :
    Lands (fun t => ∃ more, t.Shelves cfg next (more ++ xs) ∧
        ∀ e ∈ es, ∃ x ∈ more, x.definition = n ∧ x.item = e)
      (fun t => ∃ more, t.Leaves cfg next (more ++ xs))
      (es.forM (runExample cfg (visit cfg) n base line)) s := by
  induction es generalizing s xs with
  | nil => exact ⟨[], hs, nofun⟩
  | cons e rest ih =>
    obtain ⟨he, hsub⟩ := cons_subset.mp hes
    refine (shelves_runExample hnum hs hexamples he (hstems e)).bind fun _ r _ ⟨outcome, hr⟩ => ?_
    have hlater := ih hr (fun e' outcome' => (hstems e' outcome').mono [_]) hsub
    refine lands_of (fun _ t h => ?_) fun _ t h => ?_
    · obtain ⟨more, ht, hall⟩ := hlater.ok h
      refine ⟨more ++ [⟨n, base, line, e, outcome⟩], by simpa using ht, ?_⟩
      refine forall_mem_cons.mpr ⟨⟨_, mem_append_right more mem_cons_self, rfl, rfl⟩,
        fun e' he' => ?_⟩
      obtain ⟨x, hx, hof⟩ := hall e' he'
      exact ⟨x, mem_append_left _ hx, hof⟩
    · obtain ⟨more, ht⟩ := hlater.fail h
      exact ⟨more ++ [_], by simpa using ht⟩

end Examples

section Tasks

variable (hnum : cfg.Numbered next) (hs : s.Shelves cfg next xs) (hhome : cfg.Home xs s.shift n)

include hnum hs hhome

theorem shelves_runDoctests (hnodup : s.movedIds.Nodup) (hseen : s.SeenDoc n) :
    Lands (fun t => ∃ more, t.Shelves cfg next (more ++ xs) ∧ n.TakenUp more)
      (fun t => ∃ more, t.Leaves cfg next (more ++ xs)) (runDoctests cfg (visit cfg) n) s := by
  obtain ⟨e, heq⟩ | ⟨found, hfound, hnone, heq⟩ | ⟨text, line, examples, hfound, hexamples, heq⟩ :=
    runDoctests_cases cfg (visit cfg) n s
  · rw [Lands, heq]
    exact ⟨[], hs.leaves⟩
  · rw [Lands, heq]
    refine ⟨[], hs, fun text examples htext hexamples => ?_⟩
    rw [← State.docstringOf_eq_ok hfound] at htext
    obtain ⟨doc, rfl, rfl⟩ := Option.map_eq_some_iff.mp htext
    cases hnone.symm.trans hexamples
  · have htext : n.docText = some text := (State.docstringOf_eq_ok hfound).symm
    have hruns := shelves_examples hnum (hs.opened .function) ⟨text, htext, hexamples⟩
      (hs.toFiled.stems hnum hnodup hhome hseen hfound) (List.Subset.refl _)
    refine lands_of (fun _ t h => ?_) fun _ t h => ?_
    · obtain ⟨u, hu, hpop⟩ := inScope_eq_ok (heq.symm.trans h)
      obtain ⟨id, rest, -, rfl⟩ := popScope_eq_ok hpop
      obtain ⟨more, hu, hall⟩ := hruns.ok hu
      refine ⟨more, hu.closed id rest, fun text' examples' htext' hexamples' => ?_⟩
      cases htext.symm.trans htext'
      cases hexamples.symm.trans hexamples'
      exact hall
    · rcases inScope_eq_error (heq.symm.trans h) with hu | ⟨hu, -⟩
      · exact hruns.fail hu
      · exact (hruns.ok hu).imp fun _ ht => ht.1.leaves

end Tasks

section Bodies

variable {names : List Datum} (hnum : cfg.Numbered next) (hs : s.Shelves cfg next xs)
  (hhome : cfg.Home xs d.shift n)

include hs in
private theorem shelves_of_parameters
    (hfixed : ((s.resumed .functions i d).opened .function).Fixed t)
    (hmoves : Moves ((s.resumed .functions i d).opened .function).Carries
      ((s.resumed .functions i d).opened .function) t) : t.Shelves cfg next xs := by
  obtain ⟨es, hes, -⟩ := hmoves.history fun _ _ _ => trivial
  have hopened := (hs.resumed .functions i d).opened .function
  exact ⟨hfixed.filed hopened.toFiled, hopened.reports.mono (hes ▸ subset_append_right _ _)⟩

include hnum hs hhome

private theorem shelves_visitBody
    (hparameters : bindParameters cfg n names ((s.resumed .functions i d).opened .function) =
      .ok () t) :
    Lands (·.Shelves cfg next xs) (·.Leaves cfg next xs) (visitBody (visit cfg) n) t := by
  have hfixed := (steady_bindParameters cfg n names).ok hparameters
  have ht := shelves_of_parameters hs hfixed (moves_parameters.ok hparameters)
  have hhome : cfg.Home xs t.shift n := by
    rw [hfixed.shift_eq]
    exact hhome
  have hdeferred (m : Node) (hm : .node m ∈ n.deferred) : cfg.Home xs t.shift m :=
    hhome.part (NodeOf.mem_nodes_of_mem_children (NodeOf.mem_children_of_deferred hm))
  have hfollows : Follows cfg n n.deferred (visitBody (visit cfg) n) :=
    follows_visitBody (fun _ _ _ hv => follows_visit hv) n
  exact lands_of (fun _ _ h => (hfollows.ok h).shelves hnum hhome hdeferred ht)
    fun _ _ h => (hfollows.fail h).leaves hnum hhome hdeferred ht

theorem shelves_runBody : Lands (·.Shelves cfg next xs) (·.Leaves cfg next xs)
    (runBody cfg (visit cfg) n names) (s.resumed .functions i d) := by
  refine lands_of (fun _ t h => ?_) fun _ t h => ?_
  · obtain ⟨r, u, v, hparameters, hvisit, hfinish, hpop⟩ := runBody_eq_ok h
    have hu := (shelves_visitBody hnum hs hhome hparameters).ok hvisit
    obtain ⟨top, rest, entries, -, hentries, rfl⟩ := finishBody_eq_ok hfinish
    obtain ⟨id, rest, -, rfl⟩ := popScope_eq_ok hpop
    refine State.Shelves.closed ?_ id rest
    refine hu.of_eq rfl rfl rfl (fun q j e m he hm => ?_) (subset_cons_self _ _)
    rcases (State.entry_finished hentries).mp he with hold | ⟨-, -, task, htask, rfl⟩
    · exact hold
    · -- verdicts are on no definition
      have hverdict := cfg.isVerdict_of_mem_verdicts (mem_of_getElem? htask)
      cases task <;> cases hverdict <;> cases hm
  · rcases runBody_eq_error h with hparameters | ⟨r, hparameters, hvisit⟩
    · have hfixed := (steady_bindParameters cfg n names).fail hparameters
      exact (shelves_of_parameters hs hfixed (moves_parameters.fail hparameters)).leaves
    · have hr := shelves_visitBody hnum hs hhome hparameters
      exact hvisit.elim hr.fail fun hvisit => (hr.ok hvisit).leaves

end Bodies

section Queue

variable {done fuel : Nat} {ds : List Deferred} (hnum : cfg.Numbered next)

include hnum

/-- The task that is next in the queue takes the examples up that it is for. -/
theorem shelves_runTask (hs : s.Shelves cfg next xs) (hnodup : s.movedIds.Nodup) (hready : s.Ready i)
    (he : s.Entry .functions i d) :
    Lands
      (fun t => ∃ more, t.Shelves cfg next (more ++ xs) ∧ ∀ n, d.task = .doctests n → n.TakenUp more)
      (fun t => ∃ more, t.Leaves cfg next (more ++ xs)) (runTask cfg (visit cfg) d.task)
      (s.resumed .functions i d) := by
  have hhome (n : Node) (howner : d.task.owner? = some n) : cfg.Home xs d.shift n :=
    hs.tasks .functions i d n he howner
  cases htask : d.task with
  | body n names =>
    have hbody : Lands _ _ (runBody cfg (visit cfg) n names) (s.resumed .functions i d) :=
      shelves_runBody hnum hs (hhome n (by rw [htask]; rfl))
    exact lands_of (fun _ t h => ⟨[], hbody.ok h, nofun⟩) fun _ t h => ⟨[], hbody.fail h⟩
  | doctests n =>
    have hruns := shelves_runDoctests hnum (hs.resumed .functions i d)
      (hhome n (by rw [htask]; rfl)) hnodup (seenDoc_of_ready hready he htask)
    refine lands_of (fun _ t h => ?_) fun _ t => hruns.fail
    obtain ⟨more, ht, htaken⟩ := hruns.ok h
    refine ⟨more, ht, fun m hm => ?_⟩
    cases hm
    exact htaken
  | assignments | returns =>
    have hresumed := hs.resumed .functions i d
    exact lands_of (fun _ t h => ⟨[], ((speaks_verdict rfl).ok h).shelves hresumed, nofun⟩)
      fun _ t h => ⟨[], (((speaks_verdict rfl).fail h).shelves hresumed).leaves⟩

omit hnum in
theorem shelves_initial (cfg : Setup) (next : Nat) : (State.initial next).Shelves cfg next [] where
  free := Nat.le_refl _
  origin := fun _ hx => absurd hx not_mem_nil
  numbered := fun _ hx => absurd hx not_mem_nil
  apart := fun _ hx => absurd hx not_mem_nil
  covered := fun _ he => absurd he not_mem_nil
  placed := fun _ hx => absurd hx not_mem_nil
  unmoved := fun _ hid => absurd hid not_mem_nil
  seen := fun _ hid => absurd hid not_mem_nil
  lined := fun _ hx => absurd hx not_mem_nil
  tasks := by
    rintro q i d n ⟨entries, hentries, hd⟩
    cases q <;> cases hentries <;> simp at hd
  reports := fun _ hx => absurd hx not_mem_nil

omit hnum in
private theorem home_root (cfg : Setup) : cfg.Home [] none cfg.root :=
  .inl ⟨rfl, cfg.root.self_mem_nodes⟩

/-- The first `done` entries of the queue have been gone through, and their examples taken up. -/
structure Progress (cfg : Setup) (next done : Nat) (s : State) : Prop where
  balanced : s.Balanced cfg 0 done
  ready : s.Ready done
  shelves : ∃ xs, s.Shelves cfg next xs ∧ ∀ i d n, s.Entry .functions i d → i < done →
    d.task = .doctests n → n.TakenUp xs

theorem progress_runTask (h : Progress cfg next i s) (he : s.Entry .functions i d) :
    Lands (Progress cfg next (i + 1)) (fun t => ∃ xs, t.Leaves cfg next xs)
      (runTask cfg (visit cfg) d.task) (s.resumed .functions i d) := by
  obtain ⟨xs, hs, hall⟩ := h.shelves
  have hruns := shelves_runTask hnum hs h.balanced.nodup_movedIds h.ready he
  refine lands_of (fun _ t htask => ?_) fun _ t htask => (hruns.fail htask).imp' _ fun _ => id
  obtain ⟨more, ht, hmore⟩ := hruns.ok htask
  refine ⟨(balanced_runTask h.balanced he).ok htask, ready_runTask h.ready he htask, more ++ xs, ht, ?_⟩
  intro j e n hj hlt hn
  have hold := entry_of_runTask he htask (Nat.le_of_lt_succ hlt) hj
  rcases Nat.lt_or_ge j i with hlt | hge
  · exact (hall j e n hold hlt hn).mono (subset_append_right _ _)
  · obtain rfl := Nat.le_antisymm (Nat.le_of_lt_succ hlt) hge
    obtain rfl := hold.unique he
    exact (hmore n hn).mono (subset_append_left _ _)

theorem progress_walk : Lands (Progress cfg next 0) (fun t => ∃ xs, t.Leaves cfg next xs)
    (visitChildren (visit cfg) cfg.root) (State.initial next) := by
  have hchildren (m : Node) (hm : .node m ∈ cfg.root.children.map Value.node) :=
    home_of_children (home_root cfg) hm
  have hfollows := follows_visitRoot cfg
  refine lands_of (fun _ s h => ?_) fun _ s h => ?_
  · have hs := (hfollows.ok h).shelves hnum (home_root cfg) hchildren (shelves_initial cfg next)
    exact ⟨(balanced_walk hnum).ok h, ready_walk h, [], hs, by simp⟩
  · exact ⟨[], (hfollows.fail h).leaves hnum (home_root cfg) hchildren (shelves_initial cfg next)⟩

/-- After the walk and the work that it puts off, the examples of every definition whose doctests have
been put off are taken up. -/
theorem shelves_explore : Lands (fun s => ∃ xs, s.Shelves cfg next xs ∧
      ∀ n, .doctests n ∈ (cfg.account s.dispatched).2 → n.TakenUp xs)
    (fun s => ∃ xs, s.Leaves cfg next xs) (explore cfg) (State.initial next) := by
  have hends := explore_invariant (fun _ _ _ h he => progress_runTask hnum h he)
    (fun _ _ h => h.shelves.imp fun _ hs => hs.1.leaves) (progress_walk hnum)
  refine lands_of (fun _ s h => ?_) fun _ s => hends.fail
  obtain ⟨k, hk, hnone⟩ := hends.ok h
  obtain ⟨xs, hs, hall⟩ := hk.shelves
  refine ⟨xs, hs, fun n hn => ?_⟩
  rw [← hk.balanced.duties] at hn
  obtain ⟨d, hd, hduty⟩ := mem_filterMap.mp (Multiset.mem_coe.mp hn)
  obtain ⟨i, hi⟩ := mem_iff_getElem?.mp hd
  have hentry := entry_iff_queued.mpr hi
  refine hall i d n hentry (Nat.lt_of_not_le fun hle => not_entry_of_drop hnone hle hentry) ?_
  cases htask : d.task with
  | doctests m =>
    rw [htask] at hduty
    cases hduty
    rfl
  | _ =>
    rw [htask] at hduty
    cases hduty

end Queue

end Check

end ScopeLint
