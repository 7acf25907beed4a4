import Mathlib.Algebra.Order.BigOperators.Group.List
import Mathlib.Algebra.Order.Group.Nat
import ScopeLint.Proofs.Checker.Confinement
import ScopeLint.Proofs.Checker.Unrolling
import ScopeLint.Proofs.ExampleSources

/-! # The queue of put-off work comes to an end

The queue is gone through while it grows. A body puts off work for smaller nodes only. A docstring
brings new trees, but if the literals in what is compiled weigh less than the source, the sources
get lighter from one docstring to the next. -/
namespace ScopeLint

open List

theorem Value.text?_numbered (next : Nat) (v : Value) : (v.numbered next).1.text? = v.text? := by
  cases v <;> rfl

theorem Value.lookup_numberedFields (next : Nat) (fields : List (String × Value)) (name : String) :
    ∃ k, (Value.numberedFields next fields).1.lookup name =
      (fields.lookup name).map fun v => (v.numbered k).1 := by
  induction fields generalizing next with
  | nil => exact ⟨next, rfl⟩
  | cons f rest ih =>
    obtain ⟨field, v⟩ := f
    obtain ⟨k, hk⟩ := ih (Value.numberedField next (field, v)).2
    simp only [Value.numberedFields, Value.numberedField, lookup_cons]
    cases name == field with
    | true => exact ⟨next, rfl⟩
    | false => exact ⟨k, hk⟩

theorem NodeOf.field?_numbered (next : Nat) (n : Node) (name : String) :
    ∃ k, (n.numbered next).1.field? name = (n.field? name).map fun v => (v.numbered k).1 := by
  obtain ⟨id, kind, position, fields⟩ := n
  obtain ⟨k, hk⟩ := Value.lookup_numberedFields (next + 1) fields name
  refine ⟨k, ?_⟩
  simp only [NodeOf.field?, NodeOf.numbered, hk]
  cases fields.lookup name with
  | some v => rfl
  | none => by_cases h : kind = "FunctionDef" ∧ name = "returns" <;> simp [h, Value.numbered]

theorem NodeOf.literal?_eq (n : Node) : n.literal? =
    if n.kind = "Constant" then (n.field? "value").bind Value.text?
    else if n.kind = "Str" then (n.field? "s").bind Value.text? else none := by
  have hget (name : String) : (n.get name).toOption = n.field? name := by
    rw [NodeOf.get]
    cases n.field? name <;> rfl
  unfold NodeOf.literal? Value.isLiteral Value.literal Value.isKind Value.get
  by_cases hconstant : n.kind = "Constant"
  · cases hvalue : n.field? "value" with
    | none => simp [hconstant, hvalue]
    | some v => cases v <;> simp [hconstant, hvalue, hget, Value.text?]
  · by_cases hstr : n.kind = "Str" <;> simp [hconstant, hstr, hget]

theorem NodeOf.kind_numbered (next : Nat) (n : Node) : (n.numbered next).1.kind = n.kind := by
  cases n
  rfl

theorem NodeOf.literal?_numbered (next : Nat) (n : Node) :
    (n.numbered next).1.literal? = n.literal? := by
  have htext (name : String) : ((n.numbered next).1.field? name).bind Value.text? =
      (n.field? name).bind Value.text? := by
    obtain ⟨k, hk⟩ := n.field?_numbered next name
    rw [hk]
    cases n.field? name with
    | none => rfl
    | some v => exact Value.text?_numbered k v
  rw [literal?_eq, literal?_eq, n.kind_numbered, htext, htext]

section Numbered

variable {β : Type} {f : Node → β}

mutual

theorem Value.map_nodes_numbered (hf : ∀ next n, f (n.numbered next).1 = f n) (next : Nat) :
    (v : Value) →
    (v.numbered next).1.nodes.map f = v.nodes.map f
  | .node n => NodeOf.map_nodes_numbered hf next n
  | .list items => Value.map_nodes_numberedItems hf next items
  | .text _ | .int _ | .real _ | .bool _ | .null | .constant _ => rfl

theorem NodeOf.map_nodes_numbered (hf : ∀ next n, f (n.numbered next).1 = f n) (next : Nat) :
    (n : NodeOf Value) →
    (n.numbered next).1.nodes.map f = n.nodes.map f
  | ⟨id, kind, position, fields⟩ => by
    have hself := hf next ⟨id, kind, position, fields⟩
    have hfields := Value.map_nodes_numberedFields hf (next + 1) fields
    simp only [NodeOf.numbered] at hself
    simp only [NodeOf.numbered, NodeOf.nodes, map_cons, hself, hfields]

theorem Value.map_nodes_numberedFields (hf : ∀ next n, f (n.numbered next).1 = f n) (next : Nat) :
    (fields : List (String × Value)) →
    (Value.nodesFields (Value.numberedFields next fields).1).map f = (Value.nodesFields fields).map f
  | [] => rfl
  | g :: rest => by
    simp only [Value.numberedFields, Value.nodesFields, map_append]
    rw [Value.map_nodes_numberedField hf next g, Value.map_nodes_numberedFields hf _ rest]

theorem Value.map_nodes_numberedField (hf : ∀ next n, f (n.numbered next).1 = f n) (next : Nat) :
    (g : String × Value) →
    (Value.nodesField (Value.numberedField next g).1).map f = (Value.nodesField g).map f
  | (_, v) => Value.map_nodes_numbered hf next v

theorem Value.map_nodes_numberedItems (hf : ∀ next n, f (n.numbered next).1 = f n) (next : Nat) :
    (items : List Value) →
    (Value.nodesItems (Value.numberedItems next items).1).map f = (Value.nodesItems items).map f
  | [] => rfl
  | v :: rest => by
    simp only [Value.numberedItems, Value.nodesItems, map_append]
    rw [Value.map_nodes_numbered hf next v, Value.map_nodes_numberedItems hf _ rest]

end

end Numbered

variable {n m : Node} {text : String}

theorem NodeOf.literals_numbered (next : Nat) (n : Node) :
    (n.numbered next).1.literals = n.literals := by
  have hmap := NodeOf.map_nodes_numbered literal?_numbered next n
  simpa [NodeOf.literals, filterMap_map] using congrArg (filterMap fun x : Option String => x) hmap

theorem NodeOf.countP_isFunction_numbered (next : Nat) (n : Node) :
    (n.numbered next).1.nodes.countP isFunction = n.nodes.countP isFunction := by
  have hfunction (k : Nat) (m : Node) : (m.numbered k).1.isFunction = m.isFunction := by
    rw [isFunction, isFunction, kind_numbered]
  simpa [countP_map, Function.comp_def] using congrArg (countP (· == true))
    (NodeOf.map_nodes_numbered hfunction next n)

theorem NodeOf.literals_sublist (h : m ∈ n.nodes) : m.literals <+ n.literals :=
  (NodeOf.sublist_of_mem_nodes n h).filterMap _

/-- Where there are no other literals, only the functions make a difference. -/
theorem NodeOf.nesting_add_le (compile : String → Outcome) (level : Nat)
    (h : m.literals <+ n.literals) :
    m.nesting compile level + n.nodes.countP isFunction ≤
      n.nesting compile level + m.nodes.countP isFunction := by
  cases level with
  | zero => exact Nat.le_of_eq (Nat.add_comm _ _)
  | succ level =>
    rw [nesting, nesting, Nat.add_right_comm (m.nodes.countP _), Nat.add_right_comm (n.nodes.countP _),
      Nat.add_comm (m.nodes.countP _)]
    exact Nat.add_le_add_left (((h.flatMap _).map _).sum_le_sum fun _ _ => Nat.zero_le _) _

theorem NodeOf.nesting_lt_of_example {compile : String → Outcome} (level : Nat)
    (htext : text ∈ n.literals) {examples : List Example}
    (hexamples : Doctest.examples? text = some examples) {e : Example} (he : e ∈ examples)
    {tree : Node} (htree : compile e.source = .tree tree) :
    tree.nesting compile level < n.nesting compile (level + 1) := by
  have hmem : e ∈ n.examples := mem_flatMap.mpr ⟨text, htext, by rwa [hexamples]⟩
  rw [nesting]
  refine Nat.lt_of_lt_of_le ?_ ((single_le_sum (fun _ _ => Nat.zero_le _) _
    (mem_map_of_mem hmem)).trans (Nat.le_add_left _ _))
  rw [htree]
  exact Nat.lt_succ_self _

theorem Value.mem_literals_of_docText (h : (Value.node m).docText = some text) : text ∈ m.literals := by
  have hliteral {v : Value} (hmem : ∀ k, v = .node k → k ∈ m.nodes)
      (hv : (if v.isLiteral then v.literal.toOption.bind text? else none) = some text) :
      text ∈ m.literals := by
    cases v with
    | node k => exact mem_filterMap.mpr ⟨k, hmem k rfl, hv⟩
    | _ => cases hv
  refine hliteral (fun k hk => ?_) h
  split at hk
  · cases hget : (Value.node m).get "value" with
    | error e =>
      rw [hget] at hk
      cases hk
    | ok w =>
      rw [hget] at hk
      obtain rfl : w = .node k := hk
      exact NodeOf.mem_nodes_of_mem_children (NodeOf.mem_children_of_get hget mem_cons_self)
  · cases hk
    rw [NodeOf.nodes_eq]
    exact mem_cons_self

theorem NodeOf.mem_literals_of_docText (h : n.docText = some text) : text ∈ n.literals := by
  obtain ⟨hdoc, -⟩ := Option.filter_eq_some_iff.mp h
  obtain ⟨first, hfirst, hdoc⟩ := Option.bind_eq_some_iff.mp hdoc
  obtain ⟨items, hitems, hhead⟩ := Option.bind_eq_some_iff.mp hfirst
  have hitems : n.itemsOf "body" = .ok items := by
    cases hi : n.itemsOf "body" with
    | error e =>
      rw [hi] at hitems
      cases hitems
    | ok found =>
      rw [hi] at hitems
      rw [Option.some.inj hitems]
  obtain ⟨body, hget, hi⟩ := bind_eq_ok.mp hitems
  cases first with
  | node m =>
    have hchild : m ∈ n.children :=
      mem_children_of_get hget (Value.mem_children_of_items hi (mem_of_head? hhead))
    exact (literals_sublist (mem_nodes_of_mem_children hchild)).subset
      (Value.mem_literals_of_docText hdoc)
  | _ => cases hdoc

namespace Setup

/-- The literals in what is compiled from an example weigh less than the source. -/
def Shrinks (cfg : Setup) (w : Doctest.Weight) : Prop :=
  ∀ source tree, cfg.compile source = .tree tree →
    ∀ text ∈ tree.literals, w.text text < w.text source

/-- Work for the node is over before so many rounds, by a number of levels that is above the weight of
all its literals. -/
def EndsIn (cfg : Setup) (w : Doctest.Weight) (rounds : Nat) (n : Node) : Prop :=
  ∃ level, (cfg.doctests = true → ∀ text ∈ n.literals, w.text text < level) ∧
    n.nesting cfg.compile level < rounds

variable {cfg : Setup} {w : Doctest.Weight} {rounds : Nat} {n m : Node}

theorem EndsIn.of_mem_nodes (h : cfg.EndsIn w rounds n) (hm : m ∈ n.nodes) : cfg.EndsIn w rounds m := by
  obtain ⟨level, hlevel, hlt⟩ := h
  have hliterals := NodeOf.literals_sublist hm
  have hfunctions := (NodeOf.sublist_of_mem_nodes n hm).countP_le (p := NodeOf.isFunction)
  have hnesting := NodeOf.nesting_add_le cfg.compile level hliterals
  exact ⟨level, fun hon text htext => hlevel hon text (hliterals.subset htext), by omega⟩

/-- A function is itself one more than those below it. -/
theorem EndsIn.below (h : cfg.EndsIn w (rounds + 1) n) (hfunction : n.isFunction = true)
    (hm : m ∈ n.below) : cfg.EndsIn w rounds m := by
  obtain ⟨level, hlevel, hlt⟩ := h
  have hnode : m ∈ n.nodes := by
    rw [n.nodes_eq]
    exact mem_cons_of_mem _ hm
  have hliterals := NodeOf.literals_sublist hnode
  have hfunctions : m.nodes.countP NodeOf.isFunction < n.nodes.countP NodeOf.isFunction := by
    obtain ⟨f, hf, hm⟩ := mem_flatMap.mp hm
    rw [n.nodes_eq, countP_cons_of_pos hfunction, Nat.lt_succ_iff]
    exact ((Value.sublist_of_mem_nodes f.2 hm).trans
      (sublist_flatten_of_mem (mem_map_of_mem (f := (·.2.nodes)) hf))).countP_le
  have hnesting := NodeOf.nesting_add_le cfg.compile level hliterals
  exact ⟨level, fun hon text htext => hlevel hon text (hliterals.subset htext), by omega⟩

/-- The literals in what is compiled for a docstring are one level below it. -/
theorem EndsIn.example (hshrinks : cfg.Shrinks w) (hon : cfg.doctests = true)
    (h : cfg.EndsIn w (rounds + 1) n) {text : String} (htext : n.docText = some text)
    {examples : List Example} (hexamples : Doctest.examples? text = some examples) {e : Example}
    (he : e ∈ examples) {tree : Node} (htree : cfg.compile e.source = .tree tree) {next : Nat}
    (hm : m ∈ (tree.numbered next).1.nodes) : cfg.EndsIn w rounds m := by
  obtain ⟨level, hlevel, hlt⟩ := h
  have hliteral := NodeOf.mem_literals_of_docText htext
  have hbelow := hlevel hon text hliteral
  obtain ⟨lower, rfl⟩ : ∃ lower, level = lower + 1 := ⟨level - 1, by omega⟩
  have hsource : w.text e.source ≤ w.text text := w.text_source_le hexamples he
  have hliterals := NodeOf.literals_sublist hm
  rw [NodeOf.literals_numbered] at hliterals
  refine ⟨lower, fun _ t ht => ?_, ?_⟩
  · have hlighter := hshrinks e.source tree htree t (hliterals.subset ht)
    omega
  · have hfunctions := (NodeOf.sublist_of_mem_nodes _ hm).countP_le (p := NodeOf.isFunction)
    rw [NodeOf.countP_isFunction_numbered] at hfunctions
    have hnesting := NodeOf.nesting_add_le cfg.compile lower hliterals
    have hexample := NodeOf.nesting_lt_of_example lower hliteral hexamples he htree
    omega

/-- Duties for such nodes, and doctests only where they are checked. -/
def Puts (cfg : Setup) (among : Node → Prop) : Duty → Prop
  | .body n => among n ∧ n.isFunction = true
  | .doctests n => among n ∧ cfg.doctests = true

end Setup

/-- From one state to another, nothing but such duties has been put off. -/
def State.PutsOff (duties : Duty → Prop) (s t : State) : Prop :=
  ∃ more : List Deferred, t.functions = s.functions.map (· ++ more.toArray) ∧
    ∀ d ∈ more, ∃ duty, d.task.duty? = some duty ∧ duties duty

namespace State.PutsOff

variable {duties : Duty → Prop} {s t u : State}

theorem of_eq (h : t.functions = s.functions) : s.PutsOff duties t := ⟨[], by simp [h], by simp⟩

theorem trans (h : s.PutsOff duties t) (k : t.PutsOff duties u) : s.PutsOff duties u := by
  obtain ⟨first, hfirst, hfirstDuties⟩ := h
  obtain ⟨second, hsecond, hsecondDuties⟩ := k
  refine ⟨first ++ second, ?_, forall_mem_append.mpr ⟨hfirstDuties, hsecondDuties⟩⟩
  rw [hsecond, hfirst, Option.map_map]
  congr 1
  funext entries
  simp

end State.PutsOff

section Puts

variable {cfg : Setup} {among : Node → Prop} {s t : State} {below : Node → Node → Prop}

theorem Step.Leads.putsOff {step : Step}
    (hstep : step.IsOf cfg among below) (h : step.Leads cfg s t) : s.PutsOff (cfg.Puts among) t := by
  refine ⟨_, h.functions_eq, fun d hd => ?_⟩
  obtain ⟨task, htask, rfl⟩ := Option.map_eq_some_iff.mp (Option.mem_toList.mp hd)
  obtain ⟨n, rfl⟩ := Step.eq_of_task? htask
  cases task with
  | body m names =>
    obtain ⟨hn, ⟨rfl, hfunction⟩, -⟩ := hstep
    exact ⟨_, rfl, hn, hfunction⟩
  | doctests m =>
    obtain ⟨hn, ⟨rfl, hon⟩, -⟩ := hstep
    exact ⟨_, rfl, hn, hon⟩
  | assignments | returns => exact hstep.2.1.elim

theorem Step.putsOff_runAll {steps : List Step}
    (hsteps : ∀ step ∈ steps, step.IsOf cfg among below) (h : runAll cfg steps s = .ok () t) :
    s.PutsOff (cfg.Puts among) t :=
  runAll_invariant (P := s.PutsOff (cfg.Puts among))
    (fun _ _ _ hstep hl hs => hs.trans (hl.putsOff hstep))
    hsteps h (.of_eq rfl)

end Puts

/-- The loop over the queue of bodies and doctests from number `i` on: the entries that are run, one
after the other as long as there is a next one, and how the last of them ends. -/
inductive Drains (cfg : Setup) (visit : Check.Visit) :
    Nat → State → List Deferred → EStateM.Result Fault State Unit → Prop where
  | stop {i s entries} : s.functions = some entries → entries.size ≤ i →
      Drains cfg visit i s [] (.ok () s)
  | fail {i s d e t} : s.Entry .functions i d →
      Check.runTask cfg visit d.task (s.resumed .functions i d) = .error e t →
      Drains cfg visit i s [d] (.error e t)
  | step {i s d t ran r} : s.Entry .functions i d →
      Check.runTask cfg visit d.task (s.resumed .functions i d) = .ok () t →
      Drains cfg visit (i + 1) t ran r → Drains cfg visit i s (d :: ran) r

variable {cfg : Setup} {i : Nat} {s t : State} {w : Doctest.Weight}

namespace Drains

variable {ran : List Deferred}

end Drains

namespace Check

theorem entry_of_next {q : Queue} {d : Deferred} {rest : List Deferred} {entries : Array Deferred}
    (hq : s.queue q = some entries) (hds : d :: rest <+: entries.toList.drop i) :
    s.Entry q i d := by
  obtain ⟨later, hlater⟩ := hds
  refine ⟨entries, hq, ?_⟩
  have hfirst : (entries.toList.drop i)[0]? = some d := by rw [← hlater]; rfl
  simpa using hfirst

/-- A loop that gets through has run the entries one after another. -/
theorem exists_drains_of_ok {fuel i : Nat}
    (h : drainWithin cfg (visit cfg) .functions fuel i s = .ok () t) :
    ∃ ran, Drains cfg (visit cfg) i s ran (.ok () t) := by
  have hopen : ∃ entries, s.functions = some entries := by
    cases hqueue : s.functions with
    | none =>
      have hfunctions : s.queue .functions = none := hqueue
      rw [drainWithin] at h
      simp [hfunctions] at h
    | some entries => exact ⟨entries, rfl⟩
  have hstep (k : Nat) (r : State) (d : Deferred) (u : State)
      (hr : (∃ entries, r.functions = some entries) ∧ ∀ ran o,
        Drains cfg (visit cfg) k r ran o → ∃ before, Drains cfg (visit cfg) i s (before ++ ran) o)
      (he : r.Entry .functions k d)
      (htask : runTask cfg (visit cfg) d.task (r.resumed .functions k d) = .ok () u) :
      (∃ entries, u.functions = some entries) ∧ ∀ ran o, Drains cfg (visit cfg) (k + 1) u ran o →
        ∃ before, Drains cfg (visit cfg) i s (before ++ ran) o := by
    obtain ⟨entries, hq, -⟩ := (strokes_of_task he htask).grows.entry .functions k d he
    refine ⟨⟨entries, hq⟩, fun ran o hran => ?_⟩
    obtain ⟨before, hbefore⟩ := hr.2 _ _ (.step he htask hran)
    exact ⟨before ++ [d], by simpa using hbefore⟩
  obtain ⟨k, ⟨⟨entries, hq⟩, hk⟩, hnone⟩ := (drainWithin_invariant (Q := fun _ => True)
    (fun k r d hr he => lands_of (fun _ u => hstep k r d u hr he) fun _ _ _ => trivial)
    (fun _ _ _ => trivial) ⟨hopen, fun ran _ hran => ⟨[], hran⟩⟩).ok h
  rw [State.queued, hq, Option.getD_some, drop_eq_nil_iff] at hnone
  obtain ⟨before, hbefore⟩ := hk [] _ (.stop hq (by simpa using hnone))
  exact ⟨_, hbefore⟩

/-- Work that is over before so many rounds. -/
def Within (cfg : Setup) (w : Doctest.Weight) (rounds : Nat) (d : Deferred) : Prop :=
  ∃ duty, d.task.duty? = some duty ∧ cfg.Puts (cfg.EndsIn w rounds) duty

section Ends

variable (hshrinks : cfg.doctests = true → cfg.Shrinks w)

include hshrinks

theorem putsOff_runTask {rounds : Nat} {d : Deferred} (hd : Within cfg w (rounds + 1) d)
    (h : runTask cfg (visit cfg) d.task s = .ok () t) :
    s.PutsOff (cfg.Puts (cfg.EndsIn w rounds)) t := by
  obtain ⟨duty, hduty, hputs⟩ := hd
  have hclosed (m k : Node) (hm : cfg.EndsIn w rounds m)
      (hk : .node k ∈ (m.taken cfg.dialect).map (·.2)) : cfg.EndsIn w rounds k ∧ True :=
    ⟨hm.of_mem_nodes (m.nodes_eq ▸ mem_cons_of_mem _ (NodeOf.mem_below_of_mem_taken hk)), trivial⟩
  refine runTask_invariant (P := s.PutsOff _) (fun r u h hr => hr.trans (.of_eq h.functions_eq))
    (fun n names steps r u hbody hsteps hrun hr => ?_)
    (fun n text examples e tree shift steps r u hdocs htext hexamples he htree hsteps hrun hr => ?_)
    h (.of_eq rfl)
  · rw [hbody] at hduty
    cases hduty
    obtain ⟨rest, hrest, rfl⟩ := NodeOf.bodySteps_eq_ok.mp hsteps
    obtain ⟨v, hparameters, hrun⟩ := Step.runAll_append_eq_ok.mp hrun
    rw [runAll_parameterSteps] at hparameters
    have hv := ((mild_bindParameters cfg n names).ok hparameters).functions_eq
    refine (hr.trans (.of_eq hv)).trans (Step.putsOff_runAll (isOf_stepsOfAll hclosed hrest ?_) hrun)
    intro m hm
    have htaken := Pick.flatMap_taken_subperm n [.value "body"] (by simp)
    rw [flatMap_singleton, ← n.flatMap_deferred] at htaken
    have hbelow := htaken.subset (mem_flatMap.mpr ⟨_, hm, m.self_mem_nodes⟩)
    exact ⟨hputs.1.below hputs.2 hbelow, trivial⟩
  · rw [hdocs] at hduty
    cases hduty
    refine hr.trans (State.PutsOff.trans (t := r.forExample tree shift) (.of_eq rfl)
      (Step.putsOff_runAll (NodeOf.isOf_childSteps hclosed hsteps fun m hm => ⟨?_, trivial⟩) hrun))
    exact hputs.1.example (hshrinks hputs.2) hputs.2 htext hexamples he htree
      (NodeOf.mem_nodes_of_mem_children hm)

/-- Entries that are next in the queue are run one after another: they get through, and what they put
off is over one round earlier, or one of them fails. -/
theorem drains_runEntries {rounds i : Nat} {ds : List Deferred} {entries : Array Deferred}
    (hq : s.functions = some entries) (hds : ds <+: entries.toList.drop i)
    (hwithin : ∀ d ∈ ds, Within cfg w (rounds + 1) d) :
    (∃ t, runEntries cfg (visit cfg) .functions i ds s = .ok () t ∧
      s.PutsOff (cfg.Puts (cfg.EndsIn w rounds)) t ∧ ∀ ran r,
        Drains cfg (visit cfg) (i + ds.length) t ran r → Drains cfg (visit cfg) i s (ds ++ ran) r) ∨
    ∃ e t ran, runEntries cfg (visit cfg) .functions i ds s = .error e t ∧
      Drains cfg (visit cfg) i s ran (.error e t) := by
  induction ds generalizing i s entries with
  | nil => exact .inl ⟨s, rfl, .of_eq rfl, fun _ _ h => h⟩
  | cons d rest ih =>
    obtain ⟨hd, hrest⟩ := forall_mem_cons.mp hwithin
    have hentry := entry_of_next (q := .functions) hq hds
    have hrun : runEntries cfg (visit cfg) .functions i (d :: rest) s =
        (do runTask cfg (visit cfg) d.task; runEntries cfg (visit cfg) .functions (i + 1) rest)
          (s.resumed .functions i d) := rfl
    rw [hrun, bind_apply]
    cases htask : runTask cfg (visit cfg) d.task (s.resumed .functions i d) with
    | error e t => exact .inr ⟨e, t, [d], rfl, .fail hentry htask⟩
    | ok _ u =>
      obtain ⟨more, hmore, hduties⟩ := putsOff_runTask hshrinks hd htask
      have hmore : u.functions = s.functions.map (· ++ more.toArray) := hmore
      have hu : u.functions = some (entries ++ more.toArray) := by rw [hmore, hq]; rfl
      have hnext : rest <+: (entries ++ more.toArray).toList.drop (i + 1) := by
        obtain ⟨later, hlater⟩ := hds
        have hdrop : entries.toList.drop (i + 1) = rest ++ later := by
          rw [← drop_drop, ← hlater]
          rfl
        have hlength : i + 1 ≤ entries.toList.length := by
          have hlen := congrArg length hlater
          rw [length_drop, cons_append, length_cons] at hlen
          omega
        rw [Array.toList_append, drop_append_of_le_length hlength, hdrop, append_assoc]
        exact prefix_append _ _
      rcases ih hu hnext hrest with ⟨t, ht, hputs, hdrains⟩ | ⟨e, t, ran, ht, hran⟩
      · refine .inl ⟨t, ht, State.PutsOff.trans ⟨more, hmore, hduties⟩ hputs, fun ran r hran => ?_⟩
        refine .step hentry htask (hdrains ran r ?_)
        rwa [show i + 1 + rest.length = i + (d :: rest).length by simp; omega]
      · exact .inr ⟨e, t, d :: ran, ht, .step hentry htask hran⟩

/-- With as many rounds as the work in the queue can take, the loop comes to its end. -/
theorem exists_drains (rounds i : Nat) {entries : Array Deferred} (hq : s.functions = some entries)
    (hi : i ≤ entries.size) (hwithin : ∀ d ∈ entries.toList.drop i, Within cfg w rounds d) :
    ∃ ran, Drains cfg (visit cfg) i s ran (drainWithin cfg (visit cfg) .functions rounds i s) := by
  induction rounds generalizing i s entries with
  | zero =>
    have hqueue : s.queue .functions = some entries := hq
    have hnone : entries.toList.drop i = [] := by
      refine eq_nil_iff_forall_not_mem.mpr fun d hd => ?_
      obtain ⟨duty, -, hputs⟩ := hwithin d hd
      cases duty with
      | body n | doctests n =>
        obtain ⟨⟨_, -, hlt⟩, -⟩ := hputs
        exact Nat.not_lt_zero _ hlt
    rw [drainWithin_apply hqueue, if_pos hnone]
    exact ⟨[], .stop hq (by simpa using hnone)⟩
  | succ rounds ih =>
    have hqueue : s.queue .functions = some entries := hq
    rw [drainWithin_apply hqueue]
    split
    · rename_i hnone
      exact ⟨[], .stop hq (by simpa using hnone)⟩
    · dsimp only
      rw [bind_apply]
      rcases drains_runEntries hshrinks hq (prefix_refl _) hwithin with
        ⟨t, ht, ⟨more, hmore, hduties⟩, hdrains⟩ | ⟨e, t, ran, ht, hran⟩
      · have hfunctions : t.functions = some (entries ++ more.toArray) := by rw [hmore, hq]; rfl
        have hlength : i + (entries.toList.drop i).length = entries.toList.length := by
          rw [length_drop, Array.length_toList]
          omega
        have hnew : (entries ++ more.toArray).toList.drop entries.toList.length = more := by
          rw [Array.toList_append, drop_left]
        obtain ⟨ran, hran⟩ := ih entries.toList.length hfunctions (by simp) (by rwa [hnew])
        rw [← hlength] at hran
        rw [ht]
        exact ⟨_, hdrains ran _ hran⟩
      · rw [ht]
        exact ⟨ran, hran⟩

end Ends

/-- The bound on the rounds is never reached. -/
theorem exists_drains_drain (hshrinks : cfg.doctests = true → cfg.Shrinks w)
    {entries : Array Deferred} (hq : s.functions = some entries) {among : Node → Prop}
    (hduties : ∀ d ∈ entries.toList, ∃ duty, d.task.duty? = some duty ∧ cfg.Puts among duty) :
    ∃ ran, Drains cfg (visit cfg) 0 s ran (drain cfg .functions s) := by
  have hqueue : (s.queue .functions).getD #[] = entries := by
    have hfunctions : s.queue .functions = some entries := hq
    rw [hfunctions, Option.getD_some]
  have hdrain : drain cfg .functions s =
      drainWithin cfg (visit cfg) .functions (rounds cfg entries.toList) 0 s := by
    rw [← hqueue]
    rfl
  rw [hdrain]
  refine exists_drains hshrinks _ 0 hq (Nat.zero_le _) fun d hd => ?_
  have hmem := mem_of_mem_drop hd
  obtain ⟨duty, hduty, hputs⟩ := hduties d hmem
  have htask : taskRounds cfg d.task < rounds cfg entries.toList :=
    Nat.lt_succ_of_le (single_le_sum (fun _ _ => Nat.zero_le _) _ (mem_map_of_mem hmem))
  have hends (n : Node) (hn : n.nesting cfg.compile (cfg.levels n) < rounds cfg entries.toList) :
      cfg.EndsIn w (rounds cfg entries.toList) n := by
    refine ⟨cfg.levels n, fun hon text htext => ?_, hn⟩
    rw [Setup.levels, if_pos hon]
    refine Nat.lt_succ_of_le ((w.sum_le_length _).trans ?_)
    exact single_le_sum (fun _ _ => Nat.zero_le _) _ (mem_map_of_mem htext)
  refine ⟨duty, hduty, ?_⟩
  cases hd' : d.task with
  | body n names =>
    rw [hd'] at hduty htask
    cases hduty
    exact ⟨hends n htask, hputs.2⟩
  | doctests n =>
    rw [hd'] at hduty htask
    cases hduty
    exact ⟨hends n htask, hputs.2⟩
  | assignments | returns =>
    rw [hd'] at hduty
    cases hduty

theorem queue_of_walk {next : Nat}
    (h : visitChildren (visit cfg) cfg.root (State.initial next) = .ok () s) :
    ∃ entries, s.functions = some entries ∧ ∀ d ∈ entries.toList,
      ∃ duty, d.task.duty? = some duty ∧ cfg.Puts (· ∈ cfg.root.nodes) duty := by
  obtain ⟨steps, hsteps, hrun⟩ := exists_childSteps h
  have hfrom := NodeOf.isFrom_childSteps (fun m hm k hk => (NodeOf.sublist_of_mem_nodes _ hm).subset hk)
    cfg.root.self_mem_nodes hsteps
  obtain ⟨more, hmore, hduties⟩ := Step.putsOff_runAll hfrom hrun
  exact ⟨#[] ++ more.toArray, by rw [hmore]; rfl, by simpa using hduties⟩

end Check

end ScopeLint
