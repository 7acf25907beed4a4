import ScopeLint.Proofs.Checker.Itinerary

/-! # Docstrings come before their examples

The examples of a docstring are put off, and so may be the docstring itself, as a part of the body of
a function. The queue has the body before the examples, so that the docstring has been visited, and
stands where it belongs, when its examples are taken up. -/
namespace ScopeLint

open List

variable {cfg : Setup} {s t : State} {n doc m : Node} {line : Datum} {v : Value} {i : Nat}
  {d : Deferred} {e : Example} {vs : List Value} {base : Shift}

def Value.docNode? (v : Value) : Option Node :=
  (if v.isKind "Expr" then (v.get "value").toOption.getD .null else v).node?

def NodeOf.docNode? (n : Node) : Option Node :=
  ((n.itemsOf "body").toOption.bind List.head?).bind Value.docNode?

section Docstrings

variable {text : String}

private theorem State.docstring_place_of_literal (hv : v.isLiteral = true)
    (h : s.docstring v = .ok (some (.text text, line))) :
    ∃ doc p, v = .node doc ∧ s.position? doc = some p ∧
      State.lineAbove p.line (text.toList.count '\n') = .ok line := by
  unfold State.docstring at h
  simp only [Value.isKind_expr_of_isLiteral hv, hv, Bool.not_true, Bool.false_eq_true, if_false,
    pure_bind] at h
  split at h
  · rename_i doc
    split at h
    · rename_i p hp
      obtain ⟨content, -, h⟩ := bind_eq_ok.mp h
      split at h
      · obtain ⟨above, habove, h⟩ := bind_eq_ok.mp h
        cases h
        exact ⟨doc, p, rfl, hp, habove⟩
      · obtain ⟨above, -, h⟩ := bind_eq_ok.mp h
        cases h
      · cases h
    · cases h
  · cases h

theorem State.docstring_place (h : s.docstring v = .ok (some (.text text, line))) :
    ∃ doc p, v.docNode? = some doc ∧ s.position? doc = some p ∧
      State.lineAbove p.line (text.toList.count '\n') = .ok line := by
  cases hexpr : v.isKind "Expr" with
  | false =>
    cases hv : v.isLiteral with
    | true =>
      obtain ⟨doc, p, rfl, hp, habove⟩ := State.docstring_place_of_literal hv h
      exact ⟨doc, p, by simp [Value.docNode?, hexpr, Value.node?], hp, habove⟩
    | false =>
      simp only [State.docstring, hexpr, hv, pure_bind] at h
      cases h
  | true =>
    simp only [State.docstring, hexpr, if_true] at h
    obtain ⟨inner, hinner, h⟩ := bind_eq_ok.mp h
    cases hv : inner.isLiteral with
    | true =>
      have hdoc : s.docstring inner = .ok (some (.text text, line)) := by
        simp only [State.docstring, Value.isKind_expr_of_isLiteral hv, Bool.false_eq_true, if_false,
          pure_bind]
        exact h
      obtain ⟨doc, p, rfl, hp, habove⟩ := State.docstring_place_of_literal hv hdoc
      refine ⟨doc, p, ?_, hp, habove⟩
      simp [Value.docNode?, hexpr, hinner, Except.toOption, Value.node?]
    | false =>
      rw [hv] at h
      cases h

theorem State.docstringOf_place (h : s.docstringOf n = .ok (some (text, line))) :
    ∃ doc p, n.docNode? = some doc ∧ s.position? doc = some p ∧
      State.lineAbove p.line (text.toList.count '\n') = .ok line := by
  obtain ⟨items, hitems, h⟩ := bind_eq_ok.mp h
  have hbody : (n.itemsOf "body").toOption = some items := by
    rw [hitems]
    rfl
  rw [NodeOf.docNode?, hbody]
  split at h
  · cases h
  · rename_i first hhead
    obtain ⟨doc, hdoc, h⟩ := bind_eq_ok.mp h
    rw [Option.bind_some, hhead, Option.bind_some]
    split at h
    · by_cases hempty : ‹String› = ""
      · rw [if_pos hempty] at h
        cases h
      · rw [if_neg hempty] at h
        cases h
        exact State.docstring_place hdoc
    · split at h
      · cases h
      · cases h
    · cases h

theorem NodeOf.exists_first (hdoc : n.docNode? = some doc) :
    ∃ items first, n.get "body" = .ok (.list items) ∧
      first ∈ items ∧ first.docNode? = some doc := by
  obtain ⟨first, hfirst, hdoc⟩ := Option.bind_eq_some_iff.mp hdoc
  obtain ⟨items, hitems, hhead⟩ := Option.bind_eq_some_iff.mp hfirst
  have hmem := mem_of_head? hhead
  cases hbody : n.get "body" with
  | error e => simp [NodeOf.itemsOf, hbody, Except.toOption] at hitems
  | ok body =>
    have hitems : body.items.toOption = some items := by
      simpa [NodeOf.itemsOf, hbody] using hitems
    cases body with
    | list found =>
      obtain rfl : found = items := by simpa [Value.items, Except.toOption] using hitems
      exact ⟨found, first, rfl, hmem, hdoc⟩
    | text found =>
      obtain rfl : _ = items := by simpa [Value.items, Except.toOption] using hitems
      obtain ⟨c, -, rfl⟩ := mem_map.mp hmem
      simp [Value.docNode?, Value.isKind, Value.node?] at hdoc
    | _ => simp [Value.items, Except.toOption] at hitems

theorem NodeOf.docNode?_mem_nodes (h : n.docNode? = some doc) : doc ∈ n.nodes := by
  obtain ⟨items, first, hbody, hmem, hdoc⟩ := NodeOf.exists_first h
  -- the first statement is a child, and the literal is that statement or a child of it
  have hchild {m : Node} (hm : first.node? = some m) : m ∈ n.children :=
    NodeOf.mem_children_of_get hbody (mem_filterMap.mpr ⟨first, hmem, hm⟩)
  unfold Value.docNode? at hdoc
  split at hdoc
  · cases first with
    | node m =>
      have hm := hchild rfl
      cases hvalue : m.get "value" with
      | error e => simp [Value.get, hvalue, Except.toOption, Value.node?] at hdoc
      | ok value =>
        have hvalue' : value.node? = some doc := by
          simpa [Value.get, hvalue, Except.toOption] using hdoc
        cases value with
        | node k =>
          cases hvalue'
          have hk : doc ∈ m.children := NodeOf.mem_children_of_get hvalue mem_cons_self
          exact (NodeOf.sublist_of_mem_nodes n (NodeOf.mem_nodes_of_mem_children hm)).subset
            (NodeOf.mem_nodes_of_mem_children hk)
        | _ => cases hvalue'
    | _ => simp [Value.get, Except.toOption, Value.node?] at hdoc
  · exact NodeOf.mem_nodes_of_mem_children (hchild hdoc)

end Docstrings

namespace State

/-- The docstring that the body of a definition starts with has been visited. -/
def SeenDoc (s : State) (n : Node) : Prop :=
  ∀ doc, n.docNode? = some doc → (s.mark? doc).isSome = true

/-- Of the doctests that are put off on the way from one state to another, the docstring has been
visited, or it is in a body that is put off before them. -/
def Orders (s t : State) : Prop :=
  ∀ i d n, t.Entry .functions i d → d.task = .doctests n →
    s.Entry .functions i d ∨ t.SeenDoc n ∨
      ∃ j d', t.Entry .functions j d' ∧ ¬ s.Entry .functions j d' ∧ j < i ∧
        d'.task.duty? = some (.body n)

/-- The same for the doctests in the queue from number `done` on. -/
def Ready (done : Nat) (s : State) : Prop :=
  ∀ i d n, s.Entry .functions i d → done ≤ i → d.task = .doctests n →
    s.SeenDoc n ∨ ∃ j d', s.Entry .functions j d' ∧ done ≤ j ∧ j < i ∧
      d'.task.duty? = some (.body n)

variable {u : State}

theorem SeenDoc.lasts (h : s.SeenDoc n) (hlasts : s.Lasts t) : t.SeenDoc n :=
  fun doc hdoc => hlasts.remembers doc (h doc hdoc)

theorem Orders.refl (s : State) : s.Orders s := fun _ _ _ hd _ => .inl hd

theorem Orders.of_eq (h : t.functions = s.functions) : s.Orders t := by
  intro i d n hd _
  left
  rwa [Entry, queue, ← h]

theorem Orders.trans (h : s.Orders t) (k : t.Orders u) (hst : s.Lasts t) (htu : t.Lasts u) :
    s.Orders u := by
  intro i d n hd htask
  rcases k i d n hd htask with hd | hseen | ⟨j, d', hj, hnew, hlt, hbody⟩
  · rcases h i d n hd htask with hd | hseen | ⟨j, d', hj, hnew, hlt, hbody⟩
    · exact .inl hd
    · exact .inr (.inl (hseen.lasts htu))
    · exact .inr (.inr ⟨j, d', htu.entry j d' hj, hnew, hlt, hbody⟩)
  · exact .inr (.inl hseen)
  · exact .inr (.inr ⟨j, d', hj, fun hold => hnew (hst.entry j d' hold), hlt, hbody⟩)

/-- An entry that comes later than another state's queue goes. -/
theorem lt_of_new {i j : Nat} {d e : Deferred} (hd : s.Entry .functions j d)
    (he : t.Entry .functions i e) (hlasts : s.Lasts t) (hnew : ¬ s.Entry .functions i e) :
    j < i := by
  by_contra hle
  obtain ⟨entries, hentries, hget⟩ := hd
  have hlt : i < entries.size := by
    have hsize := (Array.getElem?_eq_some_iff.mp hget).1
    omega
  have hold : s.Entry .functions i entries[i] := ⟨entries, hentries, by simp⟩
  obtain rfl := (hlasts.entry i _ hold).unique he
  exact hnew hold

end State

namespace Trail

open Check

variable {visit : Visit} {ps : List Leg} {ds : List Duty}

/-- Doctests that are put off by the rule for `n` itself come after the work that the rule puts off
before them. -/
theorem orders_apart (hv : ∀ v ∈ vs, Follows cfg n vs (visit v n))
    (hvisit : ∀ v ∈ vs, ∀ s t, visit v n s = .ok () t → s.Orders t)
    (h : Trail cfg visit n ps ds s t) (hps : ∀ p ∈ ps, p.2 ∈ vs) (hd : t.Entry .functions i d)
    (htask : d.task = .doctests m) :
    (s.Entry .functions i d ∨ t.SeenDoc m ∨
      ∃ j d', t.Entry .functions j d' ∧ ¬ s.Entry .functions j d' ∧ j < i ∧
        d'.task.duty? = some (.body m)) ∨
    (m = n ∧ ¬ s.Entry .functions i d ∧ ∃ before after, ds = before ++ .doctests n :: after ∧
      ∀ duty ∈ before, ∃ j d', t.Entry .functions j d' ∧ ¬ s.Entry .functions j d' ∧ j < i ∧
        d'.task.duty? = some duty) := by
  induction h with
  | done => exact .inl (.inl hd)
  | @next _ _ first _ _ _ _ hfirst hsecond ih ih' =>
    obtain ⟨hps₁, hps₂⟩ := forall_mem_append.mp hps
    have hlasts₁ := (hfirst.course hv hps₁).lasts
    have hlasts₂ := (hsecond.course hv hps₂).lasts
    rcases ih' hps₂ hd with (hmid | hseen | ⟨j, d', hj, hnew, hlt, hbody⟩) |
      ⟨rfl, hnew, before, after, hes, hbefore⟩
    · rcases ih hps₁ hmid with (hold | hseen | ⟨j, d', hj, hnew, hlt, hbody⟩) |
        ⟨rfl, hnew, before, after, hds, hbefore⟩
      · exact .inl (.inl hold)
      · exact .inl (.inr (.inl (hseen.lasts hlasts₂)))
      · exact .inl (.inr (.inr ⟨j, d', hlasts₂.entry j d' hj, hnew, hlt, hbody⟩))
      · refine .inr ⟨rfl, hnew, before, after ++ _, by rw [hds, append_assoc]; rfl, ?_⟩
        intro duty hduty
        obtain ⟨j, d', hj, hrest⟩ := hbefore duty hduty
        exact ⟨j, d', hlasts₂.entry j d' hj, hrest⟩
    · exact .inl (.inr (.inl hseen))
    · exact .inl (.inr (.inr ⟨j, d', hj, fun hold => hnew (hlasts₁.entry j d' hold), hlt, hbody⟩))
    · refine .inr ⟨rfl, fun hold => hnew (hlasts₁.entry i d hold), first ++ before, after, ?_, ?_⟩
      · rw [hes, append_assoc]
      · intro duty hduty
        rcases mem_append.mp hduty with hduty | hduty
        · obtain ⟨j, d', hj, hjnew, hjbody⟩ := hfirst.exists_entry hv hps₁ hduty
          exact ⟨j, d', hlasts₂.entry j d' hj, hjnew, State.lt_of_new hj hd hlasts₂ hnew, hjbody⟩
        · obtain ⟨j, d', hj, hjnew, hrest⟩ := hbefore duty hduty
          exact ⟨j, d', hj, fun hold => hjnew (hlasts₁.entry j d' hold), hrest⟩
  | act a _ ha =>
    have hqueue := ((a.run_steady cfg).ok ha).queue_eq .functions
    rw [State.Entry, hqueue] at hd
    exact .inl (.inl hd)
  | scope own _ _ hpop ih =>
    obtain ⟨id, rest, -, rfl⟩ := popScope_eq_ok hpop
    refine ih (fun p hp => ?_) hd
    obtain ⟨v, hmem, rfl⟩ := mem_map.mp hp
    exact hps (some own, v) (mem_map_of_mem hmem)
  | guard names _ ih => exact ih hps hd
  | task task hof hduty hdefer =>
    obtain ⟨entries, hq, rfl⟩ := defer_eq_ok hdefer
    rcases (State.entry_withTask hq).mp hd with hold | ⟨-, rfl, rfl⟩
    · exact .inl (.inl hold)
    · dsimp only at htask
      subst htask
      obtain rfl : m = n := hof
      cases hduty
      refine .inr ⟨rfl, ?_, [], [], rfl, forall_mem_nil _⟩
      rintro ⟨others, hothers, hget⟩
      cases hq.symm.trans hothers
      simp at hget
  | visit hvalue =>
    exact .inl (hvisit _ (hps _ mem_cons_self) _ _ hvalue i d m hd htask)

end Trail

namespace Check

variable {fuel : Nat}

theorem marked_of_visitWithin (h : visitWithin cfg fuel (.node m) n s = .ok () t) :
    (t.mark? m).isSome = true := by
  obtain ⟨fuel', r, u, -, henter, hhandle, hlasts, -⟩ := visitWithin_eq_ok h
  obtain ⟨w, -, rfl⟩ := enterNode_eq_ok henter
  have hcourse : Course cfg m (m.handed cfg.dialect) (w.entered m n) u :=
    (follows_handleNode fun _ hv => follows_visitWithin fuel' hv).ok hhandle
  refine hlasts.remembers m (hcourse.lasts.remembers m ?_)
  simp [State.mark?, State.entered]

theorem marked_docNode {first : Value} (h : visitWithin cfg fuel first n s = .ok () t)
    (hdoc : first.docNode? = some doc) : (t.mark? doc).isSome = true := by
  unfold Value.docNode? at hdoc
  cases first with
  | node m =>
    split at hdoc
    · rename_i hexpr
      have hkind : m.kind = "Expr" := by simpa [Value.isKind] using hexpr
      cases hvalue : m.get "value" with
      | error e => simp [Value.get, hvalue, Except.toOption, Value.node?] at hdoc
      | ok value =>
        have hdoc : value.node? = some doc := by
          simpa [Value.get, hvalue, Except.toOption] using hdoc
        have hchild : doc ∈ m.children := by
          cases value with
          | node k =>
            cases hdoc
            exact NodeOf.mem_children_of_get hvalue mem_cons_self
          | _ => cases hdoc
        have hrule : Rule.of? m.kind = some .descend := by
          rw [hkind]
          decide
        have hleg : (none, .node doc) ∈ m.taken cfg.dialect := by
          simp [NodeOf.taken, hrule, Rule.taken, Rule.handed, legs, hchild]
        obtain ⟨fuel', r, u, -, -, hhandle, hlasts, -⟩ := visitWithin_eq_ok h
        obtain ⟨r', u', hvisit, -, -, hlasts'⟩ :=
          (trails_handleNode r () u hhandle).exists_visit
            (fun _ hv => follows_visitWithin fuel' hv) (fun _ hp => NodeOf.mem_handed_of_taken hp)
            hleg
        exact (hlasts'.trans hlasts).remembers doc (marked_of_visitWithin hvisit)
    · cases hdoc
      exact marked_of_visitWithin h
  | _ => simp [Value.isKind, Value.node?] at hdoc

theorem seenDoc_of_classDef (hrule : Rule.of? n.kind = some .classDef)
    (h : handleNode cfg (visitWithin cfg fuel) n s = .ok () t) : t.SeenDoc n := by
  intro doc hdoc
  obtain ⟨items, first, hbody, hmem, hfirst⟩ := NodeOf.exists_first hdoc
  have hleg : (some .classBody, first) ∈ n.taken cfg.dialect := by
    have hitem : first ∈ (Value.node n).itemsIn "body" := by
      rw [Value.itemsIn_of_get (v := .node n) hbody rfl]
      exact hmem
    simp only [NodeOf.taken, hrule, Rule.taken]
    exact mem_append_right _ (mem_map_of_mem hitem)
  obtain ⟨r, u, hvisit, -, -, hlasts⟩ := (trails_handleNode s () t h).exists_visit
    (fun _ hv => follows_visitWithin fuel hv) (fun _ hp => NodeOf.mem_handed_of_taken hp) hleg
  exact hlasts.remembers doc (marked_docNode hvisit hfirst)

theorem orders_handleNode (hbelow : ∀ v s t, visitWithin cfg fuel v n s = .ok () t → s.Orders t)
    (h : handleNode cfg (visitWithin cfg fuel) n s = .ok () t) : s.Orders t := by
  intro i d m hd htask
  rcases (trails_handleNode s () t h).orders_apart (fun _ hv => follows_visitWithin fuel hv)
    (fun v _ => hbelow v) (fun _ hp => NodeOf.mem_handed_of_taken hp) hd htask with
    hordered | ⟨rfl, hnew, before, after, hduties, hbefore⟩
  · exact hordered
  · right
    -- only definitions put doctests off: a class right away, a function after its body
    rw [NodeOf.duties] at hduties
    cases hrule : Rule.of? m.kind with
    | none => simp [hrule] at hduties
    | some rule =>
      rw [hrule] at hduties
      cases rule with
      | classDef => exact .inl (seenDoc_of_classDef hrule h)
      | functionDef =>
        right
        refine hbefore (.body m) ?_
        cases before with
        | nil => simp [Rule.duties] at hduties
        | cons first rest =>
          obtain rfl : .body m = first := (cons.inj hduties).1
          exact mem_cons_self
      | lambda =>
        cases before with
        | nil => simp [Rule.duties] at hduties
        | cons first rest => simp [Rule.duties] at hduties
      | _ => simp [Rule.duties] at hduties

theorem orders_visitWithin (fuel : Nat) (v : Value) (n : Node) (s t : State)
    (h : visitWithin cfg fuel v n s = .ok () t) : s.Orders t := by
  induction fuel generalizing v n s t with
  | zero =>
    cases v with
    | null =>
      cases h
      exact .refl s
    | _ => cases h
  | succ fuel ih =>
    cases v with
    | null =>
      cases h
      exact .refl s
    | node m =>
      obtain ⟨_, r, u, hfuel, henter, hhandle, hlasts, trace, rfl⟩ := visitWithin_eq_ok h
      cases hfuel
      obtain ⟨w, hstill, rfl⟩ := enterNode_eq_ok henter
      have hcourse : Course cfg m (m.handed cfg.dialect) (w.entered m n) u :=
        (follows_handleNode fun _ hv => follows_visitWithin fuel hv).ok hhandle
      have hentered : w.Lasts (w.entered m n) :=
        ⟨suffix_refl _, State.remembers_entered w m n, fun _ _ hd => hd⟩
      have hbefore := hstill.lasts.trans hentered
      have hfirst : s.Orders (w.entered m n) := .of_eq (hstill.toAlike.queue_eq .functions)
      have hinside := orders_handleNode (fun v s t hv => ih v m s t hv) hhandle
      exact (hfirst.trans hinside hbefore hcourse.lasts).trans (.of_eq rfl)
        (hbefore.trans hcourse.lasts) hlasts
    | _ => exact absurd h (refuse_ne_ok cfg _ s t)

/-- All visits keep the order. -/
theorem orders_visit (h : visit cfg v n s = .ok () t) : s.Orders t :=
  orders_visitWithin v.size v n s t h

theorem orders_of_trail (h : Trail cfg (visit cfg) n (legs vs) [] s t) :
    s.Orders t := by
  have hlegs : ∀ p ∈ legs vs, p.2 ∈ vs := fun p hp => by
    obtain ⟨v, hv, rfl⟩ := mem_map.mp hp
    exact hv
  intro i d m hd htask
  rcases h.orders_apart (fun _ hv => follows_visit hv) (fun v _ s t => orders_visit) hlegs hd htask
    with hordered | ⟨-, -, before, after, hnone, -⟩
  · exact hordered
  · simp at hnone

section Queue

/-- A body is gone through in order, and its docstring has been visited then. -/
theorem orders_runBody {names : List Datum}
    (h : runBody cfg (visit cfg) n names (s.resumed .functions i d) = .ok () t) :
    s.Orders t ∧ t.SeenDoc n := by
  obtain ⟨r, u, v, hparameters, hbody, hfinish, hpop⟩ := runBody_eq_ok h
  have htrail : Trail cfg (visit cfg) n (legs n.deferred) [] r u := trails_visitBody r () u hbody
  have hstart : s.Orders r :=
    .of_eq (((steady_bindParameters cfg n names).ok hparameters).queue_eq .functions)
  have hfollows : Follows cfg n n.deferred (visitBody (visit cfg) n) :=
    follows_visitBody (fun _ _ _ hv => follows_visit hv) n
  have hcourse : Course cfg n n.deferred r u := hfollows.ok hbody
  have hlasts := State.lasts_finished hfinish hpop
  have hend : u.Orders t := by
    obtain ⟨top, rest, entries, -, -, rfl⟩ := finishBody_eq_ok hfinish
    obtain ⟨id, rest, -, rfl⟩ := popScope_eq_ok hpop
    exact .of_eq rfl
  constructor
  · have hinside := hstart.trans (orders_of_trail htrail) (State.lasts_parameters hparameters)
      hcourse.lasts
    exact hinside.trans hend ((State.lasts_parameters hparameters).trans hcourse.lasts) hlasts
  · intro doc hdoc
    obtain ⟨items, first, hget, hmem, hfirst⟩ := NodeOf.exists_first hdoc
    have hdeferred : n.deferred = items := by
      unfold NodeOf.deferred
      rw [hget]
    have hleg : (none, first) ∈ legs n.deferred := mem_map_of_mem (hdeferred ▸ hmem)
    obtain ⟨r', u', hvisit, -, -, hlasts'⟩ := htrail.exists_visit (fun _ hv => follows_visit hv)
      (fun p hp => by
        obtain ⟨v, hv, rfl⟩ := mem_map.mp hp
        exact hv) hleg
    exact (hlasts'.trans hlasts).remembers doc (marked_docNode hvisit hfirst)

section Examples

variable {visit : Visit}

/-- An example that has been gone through has been visited as a tree, or it has been reported that it
cannot be read. -/
theorem runExample_eq_ok (h : runExample cfg visit n base line e s = .ok () t) :
    (∃ tree, cfg.compile e.source = .tree tree ∧
      visitExample visit base line e tree s = .ok () t) ∨
    ∃ message row offset text position,
      cfg.compile e.source = .syntaxError message row offset text ∧
      doctestPosition line e row offset = .ok position ∧
      reportWith cfg .doctestSyntaxError [s.datumOf (.node n), position] [] s = .ok () t := by
  unfold runExample at h
  cases hcompile : cfg.compile e.source with
  | tree tree =>
    rw [hcompile] at h
    exact .inl ⟨tree, rfl, h⟩
  | syntaxError message row offset text =>
    rw [hcompile] at h
    obtain ⟨position, hposition, h⟩ := lift_bind_eq_ok.mp h
    rw [bind_apply, datum_apply] at h
    exact .inr ⟨message, row, offset, text, position, rfl, hposition, h⟩
  | failure kind text =>
    rw [hcompile] at h
    cases h

theorem runExample_eq_error {fault : Fault}
    (h : runExample cfg visit n base line e s = .error fault t) : t = s ∨
    (∃ tree, cfg.compile e.source = .tree tree ∧
      visitExample visit base line e tree s = .error fault t) ∨
    ∃ args, reportWith cfg .doctestSyntaxError args [] s = .error fault t := by
  unfold runExample at h
  cases hcompile : cfg.compile e.source with
  | tree tree =>
    rw [hcompile] at h
    exact .inr (.inl ⟨tree, rfl, h⟩)
  | syntaxError message row offset text =>
    rw [hcompile] at h
    obtain ⟨-, rfl⟩ | ⟨position, -, h⟩ := lift_bind_eq_error.mp h
    · exact .inl rfl
    · rw [bind_apply, datum_apply] at h
      exact .inr (.inr ⟨_, h⟩)
  | failure kind text =>
    rw [hcompile] at h
    cases h
    exact .inl rfl

end Examples

theorem orders_runExample (h : runExample cfg (visit cfg) n base line e s = .ok () t) :
    s.Orders t := by
  rcases runExample_eq_ok h with ⟨tree, -, h⟩ | ⟨_, _, _, _, position, -, -, h⟩
  · obtain ⟨shift, u, -, hvisit, rfl⟩ := visitExample_eq_ok h
    have hinside : (s.forExample tree shift).Orders u :=
      orders_of_trail (trails_visitChildren _ () u hvisit)
    exact hinside
  · have hspeech := (speaks_reportWith cfg (mem_singleton.mpr rfl) _ _).ok h
    exact .of_eq (hspeech.alike.queue_eq .functions)

theorem orders_examples {examples : List Example}
    (h : examples.forM (runExample cfg (visit cfg) n base line) s = .ok () t) : s.Orders t := by
  induction examples generalizing s with
  | nil =>
    cases h
    exact .refl _
  | cons e rest ih =>
    obtain ⟨_, r, hfirst, hrest⟩ := bind_apply_eq_ok.mp h
    have hlasts {s t : State} {es : List Example}
        (h : es.forM (runExample cfg (visit cfg) n base line) s = .ok () t) : s.Lasts t :=
      ((examples_runDoctests (fun _ _ _ hv => follows_visit hv) n base line es).ok h :
        Examples cfg s t).lasts
    have hone : [e].forM (runExample cfg (visit cfg) n base line) s = .ok () r :=
      bind_apply_eq_ok.mpr ⟨(), r, hfirst, rfl⟩
    exact (orders_runExample hfirst).trans (ih hrest) (hlasts hone) (hlasts hrest)

/-- The task that is next in the queue keeps the order, and a body has its docstring visited. -/
theorem orders_runTask (h : runTask cfg (visit cfg) d.task (s.resumed .functions i d) = .ok () t) :
    s.Orders t ∧ ∀ n, d.task.duty? = some (.body n) → t.SeenDoc n := by
  cases htask : d.task with
  | body n names =>
    rw [htask] at h
    obtain ⟨horders, hseen⟩ := orders_runBody h
    refine ⟨horders, fun m hm => ?_⟩
    cases hm
    exact hseen
  | doctests n =>
    rw [htask] at h
    refine ⟨?_, fun m hm => nomatch hm⟩
    obtain ⟨e, heq⟩ | ⟨found, -, -, heq⟩ | ⟨text, line, examples, -, -, heq⟩ :=
      runDoctests_cases cfg (visit cfg) n (s.resumed .functions i d)
    · cases heq.symm.trans h
    · cases heq.symm.trans h
      exact .of_eq rfl
    · obtain ⟨u, hact, hpop⟩ := inScope_eq_ok (heq.symm.trans h)
      obtain ⟨id, rest, -, rfl⟩ := popScope_eq_ok hpop
      have hinside := orders_examples hact
      exact hinside
  | assignments | returns =>
    have hverdict : d.task.isVerdict = true := by rw [htask]; rfl
    have hspeech : (s.resumed .functions i d).Says Kind.ofVerdicts t :=
      (speaks_verdict hverdict).ok h
    exact ⟨.of_eq (hspeech.alike.queue_eq .functions), fun m hm => nomatch hm⟩

/-- The first of the entries that are left is for a body or for doctests whose docstring has been
visited. -/
theorem seenDoc_of_ready (h : s.Ready i) (he : s.Entry .functions i d)
    (htask : d.task = .doctests n) : s.SeenDoc n := by
  rcases h i d n he (Nat.le_refl i) htask with hseen | ⟨j, d', -, hle, hlt, -⟩
  · exact hseen
  · omega

theorem ready_runTask (h : s.Ready i) (he : s.Entry .functions i d)
    (hrun : runTask cfg (visit cfg) d.task (s.resumed .functions i d) = .ok () t) :
    t.Ready (i + 1) := by
  obtain ⟨horders, hbody⟩ := orders_runTask hrun
  have hlasts := (strokes_of_task he hrun).lasts
  intro k e n hk hle htask
  rcases horders k e n hk htask with hold | hseen | ⟨j, d', hj, hnew, hlt, hduty⟩
  · rcases h k e n hold (by omega) htask with hseen | ⟨j, d', hj, hij, hlt, hduty⟩
    · exact .inl (hseen.lasts hlasts)
    · rcases Nat.eq_or_lt_of_le hij with rfl | hij
      · obtain rfl := he.unique hj
        exact .inl (hbody n hduty)
      · exact .inr ⟨j, d', hlasts.entry j d' hj, hij, hlt, hduty⟩
  · exact .inl hseen
  · exact .inr ⟨j, d', hj, State.lt_of_new he hj hlasts hnew, hlt, hduty⟩

/-- After the walk over the tree, the queue is in order. -/
theorem ready_walk {next : Nat}
    (h : visitChildren (visit cfg) cfg.root (State.initial next) = .ok () s) : s.Ready 0 := by
  have horders := orders_of_trail (trails_visitChildren _ () s h)
  intro i d n hd _ htask
  rcases horders i d n hd htask with hold | hseen | ⟨j, d', hj, -, hlt, hduty⟩
  · obtain ⟨entries, hentries, hget⟩ := hold
    cases hentries
    simp at hget
  · exact .inl hseen
  · exact .inr ⟨j, d', hj, Nat.zero_le j, hlt, hduty⟩

end Queue

end Check

end ScopeLint
