import ScopeLint.Proofs.Checker.Dispatch
import ScopeLint.Proofs.Checker.NameUses

/-! # Future imports that come too late

Future imports may stand at the top of a module, where nothing but texts and other future imports come
before them. Everything else ends that part for the rest of the run, also for what is put off. -/
namespace ScopeLint

open Check List

variable {cfg : Setup} {n p root : Node} {s t e : State} {fuel : Nat}

namespace NodeOf

/-- Whether the node is a text, alone or as a statement. -/
def isText (n : Node) : Bool := (isDocstring (.node n)).toOption.getD false

def importsFuture (n : Node) : Bool :=
  n.kind == "ImportFrom" && (n.get "module").toOption.any (·.text? == some "__future__")

/-- Whether future imports may stand after the statement if they may stand before it. -/
def keepsFutures (n : Node) : Bool := n.isText || n.importsFuture

/-- Below texts there is nothing but texts. -/
def HoldsTexts (n : Node) : Prop :=
  ∀ m ∈ n.nodes, m.isText = true → ∀ k ∈ m.children, k.isText = true

theorem of?_importFrom : Rule.of? "ImportFrom" = some .importFrom := by decide

theorem kind_of_importsFuture (h : n.importsFuture = true) : n.kind = "ImportFrom" :=
  eq_of_beq (Bool.and_eq_true_iff.mp h).1

/-- A text is no import, and nothing but what is below it is visited for it. -/
theorem rule_of_isText (h : n.isText = true) : n.kind ≠ "ImportFrom" ∧
    (Rule.of? n.kind = none ∨ Rule.of? n.kind = some .ignore ∨ Rule.of? n.kind = some .descend) := by
  have hrules : Rule.of? "Str" = some .ignore ∧ Rule.of? "Constant" = none ∧
    Rule.of? "Expr" = some .descend := by decide
  have hkind : n.kind = "Str" ∨ n.kind = "Constant" ∨ n.kind = "Expr" := by
    by_contra hno
    simp only [not_or] at hno
    simp [isText, isDocstring, Value.isLiteral, Value.isKind, hno] at h
    cases h
  rcases hkind with hk | hk | hk <;> simp [hk, hrules]

theorem sparesFutures_eq (n : Node) : n.sparesFutures = (n.kind == "ImportFrom" || n.isText) := rfl

/-- Below nodes that spare future imports, nothing but texts is visited. -/
theorem isText_of_mem_taken {d : Dialect} {k : Node} (hspares : n.sparesFutures = true)
    (htexts : n.isText = true → ∀ k ∈ n.children, k.isText = true)
    (hk : .node k ∈ (n.taken d).map (·.2)) : k.isText = true := by
  rw [sparesFutures_eq, Bool.or_eq_true, beq_iff_eq] at hspares
  rcases hspares with hkind | htext
  · simp [taken, hkind, of?_importFrom, Rule.taken, Rule.handed, legs] at hk
  · rcases (rule_of_isText htext).2 with hrule | hrule | hrule
    · simp [taken, hrule] at hk
    · simp [taken, hrule, Rule.taken, Rule.handed, legs] at hk
    · refine htexts htext k ?_
      simpa [taken, hrule, Rule.taken, Rule.handed, legs] using hk

end NodeOf

/-- Nothing is put off on the way and no future import is reported, and such imports may stand where
they might before. -/
structure State.Idles (s t : State) : Prop where
  futures_eq : t.futuresAllowed = s.futuresAllowed
  functions_eq : t.functions = s.functions
  reports_eq : t.reportsOf "E207" = s.reportsOf "E207"

def Ending.idle : Ending :=
  ⟨State.Idles, fun _ _ => True, fun _ => ⟨rfl, rfl, rfl⟩, fun _ => trivial,
    fun h k => ⟨k.futures_eq.trans h.futures_eq, k.functions_eq.trans h.functions_eq,
      k.reports_eq.trans h.reports_eq⟩, fun _ _ => trivial⟩

namespace Check

variable {below : Visit}

theorem idle_of {act : Check Unit} (h : ∀ s t, act s = .ok () t → s.Idles t) : Ends .idle act :=
  ends_of (fun s _ t => h s t) fun _ _ _ _ => trivial

theorem idles_of_speech {kinds : List Kind} (h : s.Says kinds t)
    (hcode : ∀ k ∈ kinds, k.hasCode "E207" = false) : s.Idles t :=
  ⟨by rw [h.frame], by rw [h.frame], h.reportsOf_eq hcode⟩

theorem idle_bind (cfg : Setup) (n : Node) (b : Binding) (reportsHidden : Bool) :
    Ends .idle (Check.bind cfg n b reportsHidden) := by
  refine idle_of fun s t h => ?_
  obtain ⟨top, _, key, r, _, -, -, -, hspeech, -, hend⟩ := bind_eq_ok h
  obtain ⟨hfutures, hfunctions, hreports⟩ := idles_of_speech hspeech (by decide)
  rcases hend with ⟨rfl, -⟩ | ⟨rfl, -⟩
  · refine ⟨hfutures, hfunctions, ?_⟩
    have hbound : (r.withBinding top key n b).history = [.bound top key n b] ++ r.history := rfl
    rw [State.reportsOf_of_history hbound, hreports]
    exact append_nil _
  · refine ⟨hfutures, hfunctions, ?_⟩
    have hrefused : (r.withRefusal top key n b).history = [.refused top key n b] ++ r.history := rfl
    rw [State.reportsOf_of_history hrefused, hreports]
    exact append_nil _

/-- The names that a `from` import brings in. -/
def importNamed (cfg : Setup) (n : Node) (module : Value) : Check Unit := do
  (← lift (n.itemsOf "names")).forM (importFromItem cfg n module)

theorem idle_importNamed (cfg : Setup) (n : Node) (module : Value) :
    Ends .idle (importNamed cfg n module) := by
  have hstar : Ends .idle (importStar cfg n module) := by
    refine reads_current.ends.bind fun _ => (ends_modify ?_).bind fun _ => ?_
    · exact fun _ => ⟨rfl, rfl, rfl⟩
    · refine (reads_datum _).ends.bind fun d => idle_of fun s t h => ?_
      have hspeaks : Speaks [.importStarUsed] (report cfg .importStarUsed (.node n) [d]) :=
        (told_report mem_cons_self _ _).ends cfg
      exact idles_of_speech (hspeaks.ok h) (by decide)
  refine (ends_lift _).bind fun items => ends_forM fun item _ => (ends_lift _).bind fun name => ?_
  split
  · exact hstar
  · refine (ends_lift _).bind fun full => ?_
    dsimp only
    split
    · exact reads_current.ends.bind fun _ => idle_bind cfg n _ true
    · exact idle_bind cfg n _ true

theorem futures_enterNode (h : enterNode cfg n p s = .ok () e) :
    e.futuresAllowed = (s.futuresAllowed && n.sparesFutures) ∧ e.functions = s.functions ∧
      e.history = s.history := by
  cases leads_of_enterNode h with
  | enter _ _ _ hallowed => exact ⟨hallowed, rfl, rfl⟩

theorem futures_of_enter (h : enterNode cfg n p s = .ok () e) (he : e.futuresAllowed = true) :
    s.futuresAllowed = true ∧ n.sparesFutures = true :=
  Bool.and_eq_true_iff.mp ((futures_enterNode h).1 ▸ he)

theorem handleNode_of_rule {rule : Rule} (h : Rule.of? n.kind = some rule) (below : Visit) :
    handleNode cfg below n = applyRule cfg below n rule := by
  rw [handleNode, ruleFor?, h]
  rfl

/-- A future import is reported where none may stand, and then its names are brought in. -/
theorem handleNode_of_importsFuture (hn : n.importsFuture = true)
    (h : handleNode cfg below n e = .ok () t) : t.futuresAllowed = e.futuresAllowed ∧
      t.functions = e.functions ∧ ∃ names, t.reportsOf "E207" = e.reportsOf "E207" ++
        if e.futuresAllowed then [] else [e.datumOf (.node n) :: names] := by
  have hkind := NodeOf.kind_of_importsFuture hn
  rw [handleNode_of_rule (hkind ▸ NodeOf.of?_importFrom)] at h
  obtain ⟨module, hmodule, h⟩ := lift_bind_eq_ok.mp h
  have hfuture : module.text? = some "__future__" := by
    simpa [NodeOf.importsFuture, hkind, hmodule, Except.toOption] using hn
  rw [if_pos hfuture, ← reportLate_bind] at h
  obtain ⟨_, r, hlate, hrest⟩ := bind_apply_eq_ok.mp h
  obtain ⟨hfutures, hfunctions, hreports⟩ := (idle_importNamed cfg n module).ok hrest
  rw [hfutures, hfunctions, hreports]
  replace hlate := get_bind_eq_ok.mp hlate
  split at hlate
  · rename_i hclosed
    obtain ⟨names, -, hlate⟩ := lift_bind_eq_ok.mp hlate
    obtain ⟨ds, u, hds, hreport⟩ := bind_apply_eq_ok.mp hlate
    obtain rfl := (ends_mapM fun v _ => reads_datum v : Reads (names.mapM datum)).ok hds
    have hspeaks : Speaks [.lateFutureImport] (report cfg .lateFutureImport (.node n) [.list ds]) :=
      (told_report mem_cons_self _ _).ends cfg
    have hframe := (hspeaks.ok hreport).frame
    have hhistory : r.history = [.reported .lateFutureImport [u.datumOf (.node n), .list ds]] ++
      u.history := report_eq_ok hreport
    refine ⟨by rw [hframe], by rw [hframe], [.list ds], ?_⟩
    rw [State.reportsOf_of_history hhistory]
    have hcode : Kind.lateFutureImport.hasCode "E207" = true := by decide
    rw [if_neg (by simpa using hclosed)]
    simp [Event.argsOf?, hcode]
  · rename_i hopen
    cases hlate
    refine ⟨rfl, rfl, [], ?_⟩
    simp_all

theorem futures_of_import (hkind : n.kind = "ImportFrom") (hn : n.importsFuture = false)
    (h : handleNode cfg below n e = .ok () t) : t.futuresAllowed = false := by
  rw [handleNode_of_rule (hkind ▸ NodeOf.of?_importFrom)] at h
  obtain ⟨module, hmodule, h⟩ := lift_bind_eq_ok.mp h
  have hother : ¬ module.text? = some "__future__" := by
    simpa [NodeOf.importsFuture, hkind, hmodule, Except.toOption] using hn
  rw [if_neg hother] at h
  obtain ⟨_, r, hclose, hrest⟩ := bind_apply_eq_ok.mp h
  cases hclose
  exact ((idle_importNamed cfg n module).ok hrest).futures_eq

theorem idle_visitWithin (htexts : root.HoldsTexts) (hn : n ∈ root.nodes) (htext : n.isText = true) :
    Ends .idle (visitWithin cfg fuel (.node n) p) := by
  refine idle_of fun s t h => ?_
  induction fuel generalizing n p s t with
  | zero => cases h
  | succ fuel ih =>
    obtain ⟨_, e, u, hfuel, henter, hhandle, -, trace, rfl⟩ := visitWithin_eq_ok h
    cases hfuel
    obtain ⟨hfutures, hfunctions, hhistory⟩ := futures_enterNode henter
    have hidle : Ends .idle (handleNode cfg (visitWithin cfg fuel) n) := by
      rcases (NodeOf.rule_of_isText htext).2 with hrule | hrule | hrule
      · rw [handleNode, ruleFor?, hrule]
        exact ends_throw _
      · rw [handleNode_of_rule hrule]
        exact ends_pure _
      · rw [handleNode_of_rule hrule]
        refine ends_forM fun k hk => idle_of fun s t h => ih ?_ (htexts n hn htext k hk) s t h
        exact (NodeOf.sublist_of_mem_nodes root hn).subset (NodeOf.mem_nodes_of_mem_children hk)
    rw [show n.sparesFutures = true by simp [NodeOf.sparesFutures_eq, htext], Bool.and_true] at hfutures
    have hentered : s.Idles e :=
      ⟨hfutures, hfunctions, by rw [State.reportsOf, hhistory, State.reportsOf]⟩
    have hleft : u.Idles { u.risen with trace := trace } := ⟨rfl, rfl, rfl⟩
    exact Ending.idle.trans (Ending.idle.trans hentered (hidle.ok hhandle)) hleft

/-- The visit of a statement. As long as future imports may stand, nothing has been put off. -/
theorem futures_visitWithin (htexts : root.HoldsTexts) (hn : n ∈ root.nodes)
    (h : visitWithin cfg fuel (.node n) p s = .ok () t) :
    t.futuresAllowed = (s.futuresAllowed && n.keepsFutures) ∧
      (t.futuresAllowed = true → t.functions = s.functions) := by
  cases htext : n.isText with
  | true =>
    obtain ⟨hfutures, hfunctions, -⟩ := (idle_visitWithin htexts hn htext).ok h
    simp [NodeOf.keepsFutures, htext, hfutures, hfunctions]
  | false =>
    obtain ⟨fuel', e, u, -, henter, hhandle, -, trace, rfl⟩ := visitWithin_eq_ok h
    obtain ⟨hfutures, hfunctions, -⟩ := futures_enterNode henter
    rw [NodeOf.sparesFutures_eq, htext, Bool.or_false] at hfutures
    rw [NodeOf.keepsFutures, htext, Bool.false_or]
    have hlost (hlost : u.futuresAllowed = false) (hkeeps : n.importsFuture = false) :
        u.futuresAllowed = (s.futuresAllowed && n.importsFuture) ∧
          (u.futuresAllowed = true → u.functions = s.functions) := by simp [hlost, hkeeps]
    by_cases hkind : n.kind = "ImportFrom"
    · cases hfuture : n.importsFuture with
      | true =>
        obtain ⟨hfutures', hfunctions', -⟩ := handleNode_of_importsFuture hfuture hhandle
        rw [Bool.and_true]
        exact ⟨hfutures'.trans (by simpa [hkind] using hfutures), fun _ => hfunctions'.trans hfunctions⟩
      | false => exact hfuture ▸ hlost (futures_of_import hkind hfuture hhandle) hfuture
    · refine hlost (Bool.eq_false_iff.mpr fun hu => ?_) (by simp [NodeOf.importsFuture, hkind])
      have hcourse := (follows_handleNode fun _ hv => follows_visitWithin fuel' hv).ok hhandle
      simp [hcourse.grows.futures hu, hkind] at hfutures

theorem futures_visitAll (htexts : root.HoldsTexts) {ns : List Node}
    (hns : ∀ n ∈ ns, n ∈ root.nodes) (h : visitAll (visit cfg) p (ns.map .node) s = .ok () t) :
    t.futuresAllowed = (s.futuresAllowed && ns.all (·.keepsFutures)) ∧
      (t.futuresAllowed = true → t.functions = s.functions) := by
  induction ns generalizing s with
  | nil =>
    cases h
    simp
  | cons n rest ih =>
    obtain ⟨hn, hrest⟩ := forall_mem_cons.mp hns
    obtain ⟨_, r, hfirst, hlater⟩ := bind_apply_eq_ok.mp h
    obtain ⟨hfutures, hfunctions⟩ := futures_visitWithin htexts hn hfirst
    obtain ⟨hfutures', hfunctions'⟩ := ih hrest hlater
    rw [all_cons, ← Bool.and_assoc, ← hfutures]
    refine ⟨hfutures', fun ht => ?_⟩
    rw [hfunctions' ht]
    exact hfunctions (by simp_all)

end Check

namespace Setup

variable {next : Nat}

/-- Where nothing has been put off there is no task, so what ends the part for future imports has come
before the first of them. -/
theorem not_futures_of_strokes (htexts : cfg.root.HoldsTexts) {r : State} {i : Nat} {d : Deferred}
    (hwalk : visitChildren (visit cfg) cfg.root (State.initial next) = .ok () s)
    (hstrokes : Strokes cfg .functions s r) (hentry : r.Entry .functions i d) :
    ¬ r.futuresAllowed = true := by
  intro hr
  have hs := hstrokes.grows.futures hr
  have hfunctions : s.functions = some #[] :=
    (futures_visitAll htexts (fun _ hk => NodeOf.mem_nodes_of_mem_children hk)
      (visitAll_children (visit cfg) cfg.root ▸ hwalk)).2 hs
  have hnone (i : Nat) (d : Deferred) : ¬ s.Entry .functions i d := by
    rintro ⟨entries, hentries, hd⟩
    cases hfunctions.symm.trans hentries
    cases hd
  rcases hstrokes.cases_head with rfl | ⟨_, hstroke, -⟩
  · exact hnone i d hentry
  · cases hstroke with
    | body hfirst | doctests hfirst | idle hfirst | verdict hfirst => exact hnone _ _ hfirst

theorem Resumes.not_futures (htexts : cfg.root.HoldsTexts) {vs : List Value}
    (h : cfg.Resumes next p vs s) : ¬ s.futuresAllowed = true := by
  cases h with
  | body hwalk hstrokes hentry _ hbind =>
    intro hs
    have := ((mild_bindParameters _ _ _).ok hbind).futures hs
    exact not_futures_of_strokes htexts hwalk hstrokes hentry this
  | tree shift hwalk hstrokes hentry hexamples =>
    exact fun hs => not_futures_of_strokes htexts hwalk hstrokes hentry (hexamples.grows.futures hs)

/-- Whether a future import comes too late at the place: it is not one of the module itself, or a
statement before it ends the part for such imports. -/
def isLate (place : Option (List Node)) : Bool := !place.any (·.all (·.keepsFutures))

theorem Dispatches.futures_eq (htexts : cfg.root.HoldsTexts) {place : Option (List Node)}
    {guards : List (List Datum)} (h : cfg.Dispatches next place guards n e) :
    (n.importsFuture = true → e.futuresAllowed = !isLate place) ∧
      (e.futuresAllowed = true → n ∈ cfg.root.nodes ∧ n.sparesFutures = true) := by
  induction h with
  | @top before after n r e hchildren hbefore henter =>
    have hnodes {k : Node} (hk : k ∈ before ++ n :: after) : k ∈ cfg.root.nodes :=
      NodeOf.mem_nodes_of_mem_children (hchildren ▸ hk)
    refine ⟨fun hn => ?_, fun he => ⟨hnodes (by simp), (futures_of_enter henter he).2⟩⟩
    have hkind := NodeOf.kind_of_importsFuture hn
    obtain ⟨hfutures, -⟩ := futures_visitAll htexts (fun k hk => hnodes (by simp [hk])) hbefore
    rw [(futures_enterNode henter).1, hfutures, NodeOf.sparesFutures_eq, hkind]
    simp [isLate, State.initial]
  | @later p n before after s r e hresumes hbefore henter =>
    have hno : ¬ e.futuresAllowed = true := fun he => by
      exact hresumes.not_futures htexts
        ((course_visitAll hbefore).grows.futures (futures_of_enter henter he).1)
    exact ⟨fun _ => Bool.eq_false_iff.mpr hno, fun he => absurd he hno⟩
  | @inner place guards p n d r e fuel before after hd hscript hbefore henter ih =>
    have hmem := NodeOf.mem_taken_of_visit hscript (mem_append_right _ mem_cons_self)
    have hvisited (he : e.futuresAllowed = true) : p ∈ cfg.root.nodes ∧ n.isText = true := by
      have hfrom (op : Op) (hop : op ∈ before) (_ : ∀ v, op ≠ .visit v) : op.IsFrom cfg p :=
        p.isFrom_script cfg () _ hscript op (mem_append_left _ hop)
      have hd : d.futuresAllowed = true := Op.runAll_invariant
        (P := fun _ r => r.futuresAllowed = true → d.futuresAllowed = true)
        (fun _ _ _ _ hleads hs ht => hs (hleads.futures ht))
        (fun _ _ _ _ _ _ _ hv hs ht => hs ((course_visitWithin hv).grows.futures ht)) hfrom hbefore id
        (futures_of_enter henter he).1
      obtain ⟨hp, hspares⟩ := ih.2 hd
      exact ⟨hp, NodeOf.isText_of_mem_taken hspares (htexts p hp) hmem⟩
    refine ⟨fun hn => Bool.eq_false_iff.mpr fun he => ?_,
      fun he => ⟨?_, (futures_of_enter henter he).2⟩⟩
    · exact (NodeOf.rule_of_isText (hvisited he).2).1 (NodeOf.kind_of_importsFuture hn)
    · exact (NodeOf.sublist_of_mem_nodes cfg.root (hvisited he).1).subset
        (NodeOf.mem_nodes_of_mem_taken hmem)

theorem Dispatches.mem_children {before : List Node} {guards : List (List Datum)}
    (h : cfg.Dispatches next (some before) guards n e) : n ∈ cfg.root.children := by
  cases h with
  | top hchildren => exact hchildren ▸ mem_append_right _ mem_cons_self

/-- All statements of the module are visited, each after those before it. -/
theorem exists_dispatches {before after : List Node}
    (hwalk : visitChildren (visit cfg) cfg.root (State.initial next) = .ok () t)
    (hchildren : cfg.root.children = before ++ n :: after) : ∃ e u fuel,
      cfg.Dispatches next (some before) [] n e ∧
        handleNode cfg (visitWithin cfg fuel) n e = .ok () u := by
  have hsplit : visitChildren (visit cfg) cfg.root = (do
      before.forM fun c => visit cfg (.node c) cfg.root
      (n :: after).forM fun c => visit cfg (.node c) cfg.root) := by
    rw [visitChildren, hchildren]
    exact forM_append
  rw [hsplit] at hwalk
  obtain ⟨_, r, hbefore, hwalk⟩ := bind_apply_eq_ok.mp hwalk
  obtain ⟨_, _, hvisit, -⟩ := bind_apply_eq_ok.mp hwalk
  obtain ⟨fuel, e, u, -, henter, hhandle, -⟩ := visitWithin_eq_ok hvisit
  have hmap : visitAll (visit cfg) cfg.root (before.map .node) =
    before.forM fun c => visit cfg (.node c) cfg.root := forM_map
  exact ⟨e, u, fuel, .top hchildren (hmap ▸ hbefore) henter, hhandle⟩

/-- A future import is reported exactly if it comes too late: a statement of the module after something
that is neither a text nor a future import, and any that is not a statement of the module itself. All
statements of the module are handled, and so is every node that a run dispatches. -/
theorem late_future_imports_reported (htexts : cfg.root.HoldsTexts) {s : State}
    (hwalk : visitChildren (visit cfg) cfg.root (State.initial next) = .ok () s) :
    (∀ before n after, cfg.root.children = before ++ n :: after → ∃ e u fuel,
      cfg.Dispatches next (some before) [] n e ∧
        handleNode cfg (visitWithin cfg fuel) n e = .ok () u) ∧
    (cfg.root.Distinct → ∀ t, explore cfg (State.initial next) = .ok () t →
      ∀ n ∈ t.dispatched, cfg.Handled next n) ∧
    ∀ place guards n e below u, cfg.Dispatches next place guards n e → n.importsFuture = true →
      handleNode cfg below n e = .ok () u → ∃ names, u.reportsOf "E207" =
        e.reportsOf "E207" ++ if isLate place then [e.datumOf (.node n) :: names] else [] := by
  refine ⟨fun before n after => exists_dispatches hwalk,
    fun hroot t hexplore => handled_of_explore hroot hexplore, ?_⟩
  intro place guards n e below u hdispatches hn hhandle
  obtain ⟨-, -, names, hreports⟩ := handleNode_of_importsFuture hn hhandle
  refine ⟨names, hreports.trans ?_⟩
  rw [(hdispatches.futures_eq htexts).1 hn]
  cases isLate place <;> rfl

end Setup

namespace Sample

def futureImport (line : Int) : Value :=
  .node ⟨0, "ImportFrom", some (.of line 0), [("module", .text "__future__"), ("names", .list [
    .node ⟨0, "alias", none, [("name", .text "division"), ("asname", .null)]⟩]), ("level", .int 0)]⟩

/-- Future imports at the nodes 3 and 6, with a text before both and a `pass` between them. -/
def futureImports : Setup :=
  setup [docstring 1 0 "doc", futureImport 2, pass 3, futureImport 4]

/-- Future imports in a class, in a function and in the example of its docstring. -/
def lateImports : Setup :=
  { setup [classDefinition 1 "C" [futureImport 2], function 3 "f"
      [docstring 4 4 ">>> from __future__ import division", futureImport 5]] with
    doctests := true
    compile := fun _ => .tree ⟨0, "Module", none, [("body", .list [futureImport 1])]⟩ }

end Sample

namespace Setup

open Sample

/-- The first import of the module is not reported, the second one is, and so are those in a class, in
a function and in an example. -/
theorem late_future_imports_reported_twice : futureImports.root.HoldsTexts ∧
    (∃ e u fuel, futureImports.Dispatches 9 (some [nodeOf futureImports 1]) []
        (nodeOf futureImports 3) e ∧
      handleNode futureImports (visitWithin futureImports fuel) (nodeOf futureImports 3) e = .ok () u ∧
      u.reportsOf "E207" = e.reportsOf "E207") ∧
    (∃ e u fuel names, futureImports.Dispatches 9 (some ([1, 3, 5].map (nodeOf futureImports))) []
        (nodeOf futureImports 6) e ∧
      handleNode futureImports (visitWithin futureImports fuel) (nodeOf futureImports 6) e = .ok () u ∧
      u.reportsOf "E207" =
        e.reportsOf "E207" ++ [e.datumOf (.node (nodeOf futureImports 6)) :: names]) ∧
    ∃ t, explore lateImports (State.initial 30) = .ok () t ∧
      (t.dispatched.filter (·.importsFuture)).length = 3 ∧
      ∀ n ∈ t.dispatched, n.importsFuture = true → ∃ guards fuel e u names,
        lateImports.Dispatches 30 none guards n e ∧
        handleNode lateImports (visitWithin lateImports fuel) n e = .ok () u ∧
        u.reportsOf "E207" = e.reportsOf "E207" ++ [e.datumOf (.node n) :: names] := by
  have htexts : futureImports.root.HoldsTexts := by
    unfold NodeOf.HoldsTexts
    decide +kernel
  have hends : finishes (visitChildren (visit futureImports) futureImports.root)
    (State.initial 9) = true := by decide +kernel
  obtain ⟨s, hwalk⟩ := exists_of_finishes hends
  obtain ⟨hall, -, hreports⟩ := late_future_imports_reported htexts hwalk
  obtain ⟨e, u, fuel, hfirst, hhandle⟩ := hall [nodeOf futureImports 1] (nodeOf futureImports 3)
    ([5, 6].map (nodeOf futureImports)) rfl
  obtain ⟨e', u', fuel', hsecond, hhandle'⟩ := hall ([1, 3, 5].map (nodeOf futureImports))
    (nodeOf futureImports 6) [] rfl
  obtain ⟨names, hnames⟩ := hreports _ _ _ _ _ _ hfirst (by decide +kernel) hhandle
  obtain ⟨names', hnames'⟩ := hreports _ _ _ _ _ _ hsecond (by decide +kernel) hhandle'
  have hearly : isLate (some [nodeOf futureImports 1]) = false := by decide +kernel
  have hlate : isLate (some ([1, 3, 5].map (nodeOf futureImports))) = true := by decide +kernel
  rw [hearly] at hnames
  rw [hlate] at hnames'
  refine ⟨htexts, ⟨e, u, fuel, hfirst, hhandle, by simpa using hnames⟩,
    ⟨e', u', fuel', names', hsecond, hhandle', hnames'⟩, ?_⟩
  have htexts : lateImports.root.HoldsTexts := by
    unfold NodeOf.HoldsTexts
    decide +kernel
  have hends : finishes (explore lateImports) (State.initial 30) = true := by decide +kernel
  have hcount : ((Check.after (explore lateImports) (State.initial 30)).dispatched.filter
    (·.importsFuture)).length = 3 := by decide +kernel
  have hexplore := ok_of_finishes hends
  obtain ⟨_, s, hwalk, -⟩ := bind_apply_eq_ok.mp hexplore
  obtain ⟨-, hhandled, hreports⟩ := late_future_imports_reported htexts hwalk
  refine ⟨_, hexplore, hcount, fun n hn hfuture => ?_⟩
  obtain ⟨place, guards, fuel, e, u, hd, hhandle⟩ := hhandled (by decide +kernel) _ hexplore n hn
  obtain ⟨names, hnames⟩ := hreports _ _ _ _ _ _ hd hfuture hhandle
  cases place with
  | none => exact ⟨guards, fuel, e, u, names, hd, hhandle, hnames⟩
  | some before =>
    have hnone : ∀ k ∈ lateImports.root.children, k.importsFuture = false := by decide +kernel
    have hchild : n ∈ lateImports.root.children := hd.mem_children
    rw [hnone n hchild] at hfuture
    cases hfuture

end Setup

end ScopeLint
