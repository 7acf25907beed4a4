import ScopeLint.Proofs.Checker.Dispatch
import ScopeLint.Proofs.Checker.NameUses

/-! # Handlers for unknown names

In the body of a `try` whose handlers name the failure, an unknown name is not reported. Only the
handlers of the innermost `try` in whose body a load stands are asked. -/
namespace ScopeLint

open Check List

variable {cfg : Setup} {ops : List Op} {s : State} {n p : Node}

def Op.guarding (guards : List Datum) : Op → List Datum
  | .guards names => .list names :: guards
  | .unguards => guards.tail
  | _ => guards

variable {t : State}

theorem Op.foldl_guarding_of_plain (h : ∀ op ∈ ops, ∀ guards, op.guarding guards = guards)
    (guards : List Datum) : ops.foldl Op.guarding guards = guards := by
  induction ops with
  | nil => rfl
  | cons op rest ih =>
    obtain ⟨hop, hrest⟩ := forall_mem_cons.mp h
    rw [foldl_cons, hop, ih hrest]

theorem Op.foldl_guarding_visits (vs : List Value) (guards : List Datum) :
    (vs.map Op.visit).foldl Op.guarding guards = guards :=
  Op.foldl_guarding_of_plain (fun op hop _ => by
    obtain ⟨v, -, rfl⟩ := mem_map.mp hop
    rfl) guards

theorem Step.Leads.guards_take {op : Op} (h : Step.Leads cfg s (.take n op) t) :
    t.guards = op.guarding s.guards := by
  cases h with
  | opens | closes | guards | unguards | defers => rfl
  | @act _ a _ ha => exact ((a.run_mild cfg).ok ha).guards_eq
  | late _ hspeech => exact hspeech.alike.guards_eq
  | future _ _ hbind => exact ((mild_bind _ _ _ _).ok hbind).guards_eq

theorem Op.guards_runAll {fuel : Nat} (hfrom : ∀ op ∈ ops, op.IsFrom cfg n)
    (h : Op.runAll cfg (visitWithin cfg fuel) n ops s = .ok () t) :
    t.guards = ops.foldl Op.guarding s.guards :=
  Op.runAll_invariant (P := fun rest r =>
      rest.foldl Op.guarding r.guards = ops.foldl Op.guarding s.guards)
    (fun _ _ _ _ hleads hs => by rwa [hleads.guards_take])
    (fun _ _ _ _ _ _ _ hv hs => by rwa [(course_visitWithin hv).level.guards_eq])
    (fun op hop _ => hfrom op hop) h rfl

/-- The children that the body does not hold are visited. -/
theorem Script.exists_others {holds : Node → Except Fault Bool} {children : List Node}
    (h : (children.forM fun c => do
      if !(← Script.lift (holds c)) then Script.emit (.visit (.node c))) = .ok ((), ops)) :
    ∃ others : List Node, ops = (others.map Value.node).map .visit ∧
      ∀ c ∈ others, holds c = .ok false := by
  induction children generalizing ops with
  | nil =>
    cases h
    exact ⟨[], rfl, by simp⟩
  | cons c rest ih =>
    obtain ⟨_, first, later, hfirst, hlater, rfl⟩ := Script.bind_eq_ok.mp h
    obtain ⟨others, rfl, hothers⟩ := ih hlater
    obtain ⟨held, _, _, hlift, hfirst, rfl⟩ := Script.bind_eq_ok.mp hfirst
    obtain ⟨hheld, rfl⟩ := Script.lift_eq_ok.mp hlift
    cases held with
    | true =>
      cases hfirst
      exact ⟨others, rfl, hothers⟩
    | false =>
      cases hfirst
      exact ⟨c :: others, rfl, forall_mem_cons.mpr ⟨hheld, hothers⟩⟩

namespace NodeOf

variable {before after : List Op}

/-- The body of a `try` is visited under its handlers, and everything else without them. -/
theorem script_tryBlock (hrule : Rule.of? p.kind = some .tryBlock)
    (h : p.script cfg = .ok ((), ops)) : ∃ body others : List Value,
      ops = .guards p.caught :: (body.map .visit ++ .unguards :: others.map .visit) ∧
        (∀ n, .node n ∈ body → p.guards n = true) ∧ ∀ n, .node n ∈ others → p.guards n = false := by
  obtain ⟨rule, _, _, hlift, happly, rfl⟩ := Script.bind_eq_ok.mp h
  obtain ⟨hrule', rfl⟩ := Script.lift_eq_ok.mp hlift
  rw [ruleFor?, hrule] at hrule'
  cases hrule'
  obtain ⟨handlers, _, _, hlift, hcatch, rfl⟩ := Script.bind_eq_ok.mp happly
  obtain ⟨hhandlers, rfl⟩ := Script.lift_eq_ok.mp hlift
  obtain ⟨caught, _, _, hlift, hvisit, rfl⟩ := Script.bind_eq_ok.mp hcatch
  obtain ⟨hcaught, rfl⟩ := Script.lift_eq_ok.mp hlift
  obtain ⟨_, _, _, hguard, hrest, rfl⟩ := Script.bind_eq_ok.mp hvisit
  obtain ⟨_, _, _, hemit, hunder, rfl⟩ := Script.bind_eq_ok.mp hguard
  cases hemit
  obtain ⟨_, _, _, hitems, hemit, rfl⟩ := Script.bind_eq_ok.mp hunder
  cases hemit
  obtain ⟨body, _, _, hlift, hvisits, rfl⟩ := Script.bind_eq_ok.mp hitems
  obtain ⟨hbody, rfl⟩ := Script.lift_eq_ok.mp hlift
  cases hvisits
  obtain ⟨others, rfl, hothers⟩ := Script.exists_others hrest
  have hnames : p.caught = caught.flatten := by
    simp [NodeOf.caught, hhandlers, hcaught, Except.toOption]
  refine ⟨body, others.map .node, by simp [hnames], fun n hn => ?_, fun n hn => ?_⟩
  · obtain ⟨v, hv, hlist⟩ := ScopeLint.bind_eq_ok.mp hbody
    cases v with
    | list =>
      cases hlist
      have hheld : (body.any fun item => (item.node?.map (·.id)) == some n.id) = true :=
        any_eq_true.mpr ⟨_, hn, by simp [Value.node?]⟩
      simp [NodeOf.guards, hrule, hv, Value.holds, hheld, Except.toOption]
    | text =>
      cases hlist
      simp at hn
    | _ => cases hlist
  · obtain ⟨c, hc, heq⟩ := mem_map.mp hn
    cases heq
    simp [NodeOf.guards, hrule, hothers n hc, Except.toOption]

/-- What is caught where a node is visited, from what is caught around its parent. -/
theorem foldl_guarding_before (h : p.script cfg = .ok ((), before ++ .visit (.node n) :: after))
    (guards : List Datum) : before.foldl Op.guarding guards =
      if p.guards n then .list p.caught :: guards else guards := by
  by_cases hrule : Rule.of? p.kind = some .tryBlock
  · obtain ⟨body, others, hops, hbody, hothers⟩ := script_tryBlock hrule h
    cases before with
    | nil => cases hops
    | cons op rest =>
      obtain ⟨rfl, hrest⟩ := cons.inj hops
      rw [foldl_cons]
      rcases append_eq_append_iff.mp hrest with ⟨more, hbody', hlater⟩ | ⟨more, hrest', hlater⟩
      · -- among the visits of the body
        cases more with
        | nil => cases hlater
        | cons _ more =>
          obtain ⟨rfl, -⟩ := cons.inj hlater
          obtain ⟨first, later, rfl, rfl, hlater⟩ := map_eq_append_iff.mp hbody'
          obtain ⟨v, _, rfl, hv, -⟩ := map_eq_cons_iff.mp hlater
          cases hv
          rw [Op.foldl_guarding_visits, hbody n (by simp)]
          rfl
      · -- behind them
        subst hrest'
        cases more with
        | nil => cases hlater
        | cons _ more =>
          obtain ⟨rfl, hothers'⟩ := cons.inj hlater
          obtain ⟨first, later, rfl, rfl, hnext⟩ := map_eq_append_iff.mp hothers'
          obtain ⟨v, _, rfl, hv, -⟩ := map_eq_cons_iff.mp hnext
          cases hv
          rw [foldl_append, Op.foldl_guarding_visits, foldl_cons, Op.foldl_guarding_visits,
            hothers n (by simp)]
          rfl
  · have hplain : ∀ op ∈ before, ∀ guards, op.guarding guards = guards := by
      intro op hop guards
      have hfrom := p.isFrom_script cfg () _ h op (mem_append_left _ hop)
      cases op with
      | guards | unguards => exact absurd hfrom hrule
      | _ => rfl
    have hno : p.guards n = false := by simp [NodeOf.guards, hrule]
    rw [Op.foldl_guarding_of_plain hplain, hno]
    rfl

end NodeOf

namespace Setup

variable {next : Nat} {e : State}

theorem Resumes.guards_eq {vs : List Value} (h : cfg.Resumes next p vs s) :
    s.guards = [.list []] := by
  have hwalked {s r : State} {i : Nat} {d : Deferred} (hstrokes : Strokes cfg .functions s r)
      (hwalk : visitChildren (visit cfg) cfg.root (State.initial next) = .ok () s) :
      ((r.resumed .functions i d).opened .function).guards = [.list []] := by
    have hcourse := course_visitAll (visitAll_children (visit cfg) cfg.root ▸ hwalk)
    exact (Run.strokes (.walk hcourse) hstrokes).outline.1
  cases h with
  | body hwalk hstrokes _ _ hbind =>
    exact ((mild_bindParameters _ _ _).ok hbind).guards_eq.trans (hwalked hstrokes hwalk)
  | tree shift hwalk hstrokes _ hexamples =>
    exact hexamples.outline.2.1.trans (hwalked hstrokes hwalk)

theorem Dispatches.guards_eq {place : Option (List Node)} {guards : List (List Datum)}
    (h : cfg.Dispatches next place guards n e) : e.guards = guards.map .list ++ [.list []] := by
  have henter {p n : Node} {r e : State} (h : enterNode cfg n p r = .ok () e) :
      e.guards = r.guards := by
    cases leads_of_enterNode h
    rfl
  induction h with
  | top _ hbefore he => exact (henter he).trans (course_visitAll hbefore).level.guards_eq
  | later hresumes hbefore he =>
    exact (henter he).trans ((course_visitAll hbefore).level.guards_eq.trans hresumes.guards_eq)
  | @inner place guards p n d r e fuel before after _ hscript hbefore he ih =>
    have hfrom : ∀ op ∈ before, op.IsFrom cfg p := fun op hop =>
      p.isFrom_script cfg () _ hscript op (mem_append_left _ hop)
    rw [henter he, Op.guards_runAll hfrom hbefore, NodeOf.foldl_guarding_before hscript, ih]
    split <;> rfl

/-- Whether an unknown name is caught. -/
def catchesUnknown (names : List Datum) : Bool := Datum.among names (.text "NameError")

/-- What is reported of a name that is loaded at `n`, where `caught` tells whether handlers for
unknown names are around. -/
def reportsOfLoad (cfg : Setup) (e : State) (n : Node) (name : String) (caught : Bool) :
    List (Kind × List Datum) :=
  if cfg.misses e.views caught (.text name) then [(.undefinedName, [e.datumOf (.node n), .text name])]
  else []

theorem misses_eq_and (caught : Bool) (views : List View) (name : Datum) :
    cfg.misses views caught name = (cfg.misses views false name && !caught) := by
  unfold misses
  split <;> simp

/-- A load is protected by the handlers of the innermost `try` in whose body it stands, function bodies
apart, and by no others. So the rule that handlers further out protect it as well holds exactly if the
name is known, the innermost ones catch the failure, or none of them does. Every load that a run
dispatches is handled so. -/
theorem innermost_handlers_protect (cfg : Setup) (next : Nat) :
    (cfg.root.Distinct → ∀ t, explore cfg (State.initial next) = .ok () t →
      ∀ n ∈ t.dispatched, cfg.Handled next n) ∧
    ∀ place guards n e name below t, cfg.Dispatches next place guards n e → n.Loads name →
      name ≠ "" → handleNode cfg below n e = .ok () t →
      t.nameReports = e.nameReports ++
        cfg.reportsOfLoad e n name (catchesUnknown (guards.headD [])) ∧
      (t.nameReports = e.nameReports ++ cfg.reportsOfLoad e n name (guards.any catchesUnknown) ↔
        cfg.misses e.views false (.text name) = false ∨ catchesUnknown (guards.headD []) = true ∨
          guards.any catchesUnknown = false) := by
  refine ⟨fun hroot t hexplore => handled_of_explore hroot hexplore, ?_⟩
  intro place guards n e name below t h hn hname hrun
  obtain ⟨v, hload, hlocals⟩ := exists_load hn hrun
  have hguard : e.isGuarded = catchesUnknown (guards.headD []) := by
    rw [State.isGuarded, h.guards_eq]
    cases guards <;> rfl
  have hreports : t.nameReports =
      e.nameReports ++ cfg.reportsOfLoad e n name (catchesUnknown (guards.headD [])) := by
    rw [(turns_locals hlocals).nameReports_eq, (turns_load hload).nameReports_eq, Act.nameReports,
      hn.nameOf? hname, hguard, reportsOfLoad]
    generalize catchesUnknown (guards.headD []) = caught
    cases hmisses : cfg.misses e.views caught (.text name) <;> simp [Option.filter, hmisses]
  refine ⟨hreports, ?_⟩
  rw [hreports, append_cancel_left_eq, reportsOfLoad, reportsOfLoad, misses_eq_and,
    misses_eq_and (guards.any _)]
  have hhead (h : catchesUnknown (guards.headD []) = true) : guards.any catchesUnknown = true := by
    cases guards with
    | nil => cases h
    | cons names _ => simpa using .inl h
  cases cfg.misses e.views false (.text name) with
  | false => simp
  | true =>
    cases hfirst : catchesUnknown (guards.headD []) with
    | true => simp [hhead hfirst]
    | false => cases guards.any catchesUnknown <;> simp

end Setup

namespace Sample

def tryExcept (line : Int) (caught : String) (body : List Value) : Value :=
  .node ⟨0, "Try", some (.of line 0), [("body", .list body), ("handlers", .list [
    .node ⟨0, "ExceptHandler", some (.of (line + 2) 0), [("type", name (line + 2) caught "Load"),
      ("name", .null), ("body", .list [pass (line + 3)])]⟩]),
    ("orelse", .list []), ("finalbody", .list [])]⟩

/-- The node 3 is a load of `foo` in the body of the `try` at the node 2, which is in that of the node
1. -/
def nestedTry (outer inner : String) : Setup :=
  setup [tryExcept 1 outer [tryExcept 2 inner [name 3 "foo" "Load"]]]

end Sample

namespace Setup

open Sample

/-- The inner handlers name the failure, so nothing is reported. -/
theorem innermost_handlers_protect_nested :
    (∃ n, n.id = 3 ∧ (nestedTry "ValueError" "NameError").Handled 13 n) ∧ ∃ e t,
    (nestedTry "ValueError" "NameError").Dispatches 13 none
      [[.text "NameError"], [.text "ValueError"]] (loaded 3 3 "foo") e ∧
    handleNode (nestedTry "ValueError" "NameError") (fun _ _ => pure ()) (loaded 3 3 "foo") e =
      .ok () t ∧ t.nameReports = e.nameReports := by
  let cfg := nestedTry "ValueError" "NameError"
  have hrule : ∀ n : Node, n.kind = "Try" → Rule.of? n.kind = some .tryBlock := by
    intro n hn
    rw [hn]
    decide +kernel
  have hscript₁ : (nodeOf cfg 1).script cfg = .ok ((), [.guards [.text "ValueError"]] ++
      .visit (.node (nodeOf cfg 2)) :: [.unguards, .visit (.node (nodeOf cfg 9))]) := by
    rw [NodeOf.script, ruleFor?, hrule _ rfl]
    rfl
  have hscript₂ : (nodeOf cfg 2).script cfg = .ok ((), [.guards [.text "NameError"]] ++
      .visit (.node (loaded 3 3 "foo")) :: [.unguards, .visit (.node (nodeOf cfg 5))]) := by
    rw [NodeOf.script, ruleFor?, hrule _ rfl]
    rfl
  let e₁ := after (enterNode cfg (nodeOf cfg 1) cfg.root) (State.initial 13)
  let e₂ := after (enterNode cfg (nodeOf cfg 2) (nodeOf cfg 1)) (e₁.guarded [.text "ValueError"])
  let e₃ := after (enterNode cfg (loaded 3 3 "foo") (nodeOf cfg 2)) (e₂.guarded [.text "NameError"])
  have hnone : visitAll (visit cfg) cfg.root (map .node []) (State.initial 13) =
    .ok () (State.initial 13) := rfl
  have henter₁ : enterNode cfg (nodeOf cfg 1) cfg.root (State.initial 13) = .ok () e₁ :=
    ok_of_finishes (by decide +kernel)
  have h₁ : cfg.Dispatches 13 (some []) [] (nodeOf cfg 1) e₁ := .top rfl hnone henter₁
  have hguard₁ : Op.runAll cfg (visitWithin cfg 0) (nodeOf cfg 1) [.guards [.text "ValueError"]] e₁ =
    .ok () (e₁.guarded [.text "ValueError"]) := rfl
  have henter₂ : enterNode cfg (nodeOf cfg 2) (nodeOf cfg 1) (e₁.guarded [.text "ValueError"]) =
    .ok () e₂ := ok_of_finishes (by decide +kernel)
  have h₂ := h₁.inner hscript₁ hguard₁ henter₂
  rw [if_pos (by decide +kernel)] at h₂
  have hguard₂ : Op.runAll cfg (visitWithin cfg 0) (nodeOf cfg 2) [.guards [.text "NameError"]] e₂ =
    .ok () (e₂.guarded [.text "NameError"]) := rfl
  have henter₃ : enterNode cfg (loaded 3 3 "foo") (nodeOf cfg 2) (e₂.guarded [.text "NameError"]) =
    .ok () e₃ := ok_of_finishes (by decide +kernel)
  have h₃ := h₂.inner hscript₂ hguard₂ henter₃
  rw [if_pos (by decide +kernel)] at h₃
  have hrun : handleNode cfg (fun _ _ => pure ()) (loaded 3 3 "foo") e₃ =
    .ok () (after (handleNode cfg (fun _ _ => pure ()) (loaded 3 3 "foo")) e₃) :=
    ok_of_finishes (by decide +kernel)
  obtain ⟨hhandled, hloads⟩ := innermost_handlers_protect cfg 13
  have hexplore := ok_of_finishes (show finishes (explore cfg) (State.initial 13) = true by
    decide +kernel)
  have hdispatched : ((after (explore cfg) (State.initial 13)).dispatched.any fun n =>
    n.id == 3) = true := by decide +kernel
  obtain ⟨hreports, -⟩ := hloads _ _ _ _ _ _ _ h₃ (loads_loaded 3 3 "foo") (by decide) hrun
  obtain ⟨n, hn, hid⟩ := any_eq_true.mp hdispatched
  refine ⟨⟨n, eq_of_beq hid, hhandled (by decide +kernel) _ hexplore n hn⟩, e₃, _, h₃, hrun,
    hreports.trans ?_⟩
  have hcatches : catchesUnknown ((nodeOf cfg 2).caught) = true := by decide +kernel
  rw [headD_cons, hcatches, reportsOfLoad, misses_eq_and, Bool.not_true, Bool.and_false]
  exact append_nil _

/-- The name is reported, although the outer `try` names the failure. -/
theorem inner_try_lifts_protection : endsWith (nestedTry "NameError" "ValueError")
    (fun t => (t.reportsOf "E303").length == 1) = true := by decide +kernel

end Setup

end ScopeLint
