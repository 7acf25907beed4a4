import ScopeLint.Proofs.Checker.Placement
import ScopeLint.Proofs.Checker.Places
import ScopeLint.Proofs.Checker.ScriptParts

/-! # A visit as a list of steps

What a visit of a tree does is known before it is done, as it is for a single rule: with the scripts of
the nodes below in the places of the visits, the script of a node becomes a list of steps without
visits. A visit that gets through has taken these steps. -/
namespace ScopeLint

open List

/-- A step of a visit: a node is entered or left, or a step of its rule is taken. -/
inductive Step where
  | enter (n parent : Node)
  | take (n : Node) (op : Op)
  | leave (n : Node)

namespace Step

open Check

def run (cfg : Setup) : Step → Check Unit
  | .enter n parent => enterNode cfg n parent
  | .take n op => op.run cfg (fun _ _ => pure ()) n
  | .leave n => do
    modify State.risen
    traceLine cfg ("end " ++ n.kind)

def runAll (cfg : Setup) (steps : List Step) : Check Unit := steps.forM (run cfg)

variable {cfg : Setup} {steps : List Step} {s u : State}

theorem runAll_cons (step : Step) (steps : List Step) :
    runAll cfg (step :: steps) = (do step.run cfg; runAll cfg steps) := rfl

theorem runAll_append (steps more : List Step) :
    runAll cfg (steps ++ more) = (do runAll cfg steps; runAll cfg more) := by
  induction steps with
  | nil => rfl
  | cons step rest ih => rw [cons_append, runAll_cons, ih, runAll_cons, bind_assoc]

theorem runAll_cons_eq_ok {step : Step} : runAll cfg (step :: steps) s = .ok () u ↔
      ∃ t, step.run cfg s = .ok () t ∧ runAll cfg steps t = .ok () u := by
  rw [runAll_cons]
  exact ⟨fun h => let ⟨_, t, ht, hu⟩ := bind_apply_eq_ok.mp h; ⟨t, ht, hu⟩,
    fun ⟨t, ht, hu⟩ => bind_apply_eq_ok.mpr ⟨(), t, ht, hu⟩⟩

theorem runAll_append_eq_ok {more : List Step} : runAll cfg (steps ++ more) s = .ok () u ↔
      ∃ t, runAll cfg steps s = .ok () t ∧ runAll cfg more t = .ok () u := by
  rw [runAll_append]
  exact ⟨fun h => let ⟨_, t, ht, hu⟩ := bind_apply_eq_ok.mp h; ⟨t, ht, hu⟩,
    fun ⟨t, ht, hu⟩ => bind_apply_eq_ok.mpr ⟨(), t, ht, hu⟩⟩

end Step

/-- The steps of a script, given the steps for what it visits. -/
def Op.expand (below : Value → Except Fault (List Step)) (n : Node) :
    List Op → Except Fault (List Step)
  | [] => .ok []
  | .visit v :: rest => do return (← below v) ++ (← expand below n rest)
  | op :: rest => do return .take n op :: (← expand below n rest)

/-- The steps of the visit of a value, as long as nodes are not nested deeper than the fuel. -/
def stepsWithin (cfg : Setup) : Nat → Value → Node → Except Fault (List Step)
  | _, .null, _ => .ok []
  | fuel + 1, .node n, parent =>
    match n.script cfg with
    | .error e => .error e
    | .ok (_, ops) => do
      return .enter n parent :: (← Op.expand (stepsWithin cfg fuel · n) n ops) ++ [.leave n]
  | _, _, _ => .error .endless

def Value.steps (cfg : Setup) (v : Value) (parent : Node) : Except Fault (List Step) :=
  stepsWithin cfg v.size v parent

def Value.stepsOfAll (cfg : Setup) (parent : Node) (vs : List Value) : Except Fault (List Step) :=
  Op.expand (Value.steps cfg · parent) parent (vs.map .visit)

section Expansion

variable {below : Value → Except Fault (List Step)} {n : Node} {ops : List Op} {steps : List Step}

theorem Op.expand_visit_eq_ok {v : Value} : Op.expand below n (.visit v :: ops) = .ok steps ↔
      ∃ first rest, below v = .ok first ∧ Op.expand below n ops = .ok rest ∧
        steps = first ++ rest := by
  rw [Op.expand, bind_eq_ok]
  constructor
  · rintro ⟨first, hfirst, h⟩
    obtain ⟨rest, hrest, h⟩ := bind_eq_ok.mp h
    cases h
    exact ⟨first, rest, hfirst, hrest, rfl⟩
  · rintro ⟨first, rest, hfirst, hrest, rfl⟩
    exact ⟨first, hfirst, bind_eq_ok.mpr ⟨rest, hrest, rfl⟩⟩

theorem Op.expand_cons_eq_ok {op : Op} (hop : ∀ v, op ≠ .visit v) :
    Op.expand below n (op :: ops) = .ok steps ↔
      ∃ rest, Op.expand below n ops = .ok rest ∧ steps = .take n op :: rest := by
  have hexpand : Op.expand below n (op :: ops) =
      (do return .take n op :: (← Op.expand below n ops)) := by
    cases op with
    | visit v => exact absurd rfl (hop v)
    | _ => rfl
  rw [hexpand, bind_eq_ok]
  constructor
  · rintro ⟨rest, hrest, h⟩
    cases h
    exact ⟨rest, hrest, rfl⟩
  · rintro ⟨rest, hrest, rfl⟩
    exact ⟨rest, hrest, rfl⟩

end Expansion

theorem stepsWithin_node_eq_ok {cfg : Setup} {fuel : Nat} {n parent : Node} {steps : List Step} :
    stepsWithin cfg fuel (.node n) parent = .ok steps ↔ ∃ fuel' ops inner, fuel = fuel' + 1 ∧
      n.script cfg = .ok ((), ops) ∧ Op.expand (stepsWithin cfg fuel' · n) n ops = .ok inner ∧
      steps = .enter n parent :: inner ++ [.leave n] := by
  cases fuel with
  | zero => simp [stepsWithin]
  | succ fuel =>
    rw [stepsWithin]
    constructor
    · intro h
      split at h
      · cases h
      · rename_i ops hops
        obtain ⟨inner, hinner, h⟩ := bind_eq_ok.mp h
        cases h
        exact ⟨fuel, ops, inner, rfl, hops, hinner, rfl⟩
    · rintro ⟨fuel', ops, inner, hfuel, hops, hinner, rfl⟩
      cases hfuel
      rw [hops]
      exact bind_eq_ok.mpr ⟨inner, hinner, rfl⟩

namespace Check

variable {cfg : Setup} {s t : State} {v : Value} {parent : Node}

theorem exists_expand {below : Visit} {steps : Value → Except Fault (List Step)} {n : Node}
    {ops : List Op} (hbelow : ∀ v s t, below v n s = .ok () t →
      ∃ ss, steps v = .ok ss ∧ Step.runAll cfg ss s = .ok () t)
    (h : Op.runAll cfg below n ops s = .ok () t) :
    ∃ ss, Op.expand steps n ops = .ok ss ∧ Step.runAll cfg ss s = .ok () t := by
  induction ops generalizing s with
  | nil => exact ⟨[], rfl, h⟩
  | cons op rest ih =>
    rw [Op.runAll_cons] at h
    obtain ⟨_, r, hop, hrest⟩ := bind_apply_eq_ok.mp h
    obtain ⟨more, hmore, hrun⟩ := ih hrest
    have hplain (hne : ∀ v, op ≠ .visit v)
        (heq : op.run cfg below n = op.run cfg (fun _ _ => pure ()) n) :
        ∃ ss, Op.expand steps n (op :: rest) = .ok ss ∧ Step.runAll cfg ss s = .ok () t := by
      rw [heq] at hop
      refine ⟨_, (Op.expand_cons_eq_ok hne).mpr ⟨more, hmore, rfl⟩, ?_⟩
      exact Step.runAll_cons_eq_ok.mpr ⟨r, hop, hrun⟩
    cases op with
    | visit v =>
      obtain ⟨first, hfirst, hsteps⟩ := hbelow v s r hop
      refine ⟨_, Op.expand_visit_eq_ok.mpr ⟨first, more, hfirst, hmore, rfl⟩, ?_⟩
      exact Step.runAll_append_eq_ok.mpr ⟨r, hsteps, hrun⟩
    | _ => exact hplain (fun _ h => nomatch h) rfl

theorem exists_stepsWithin {fuel : Nat} (h : visitWithin cfg fuel v parent s = .ok () t) :
    ∃ ss, stepsWithin cfg fuel v parent = .ok ss ∧ Step.runAll cfg ss s = .ok () t := by
  induction fuel generalizing v parent s t with
  | zero =>
    cases v with
    | null => exact ⟨[], by rw [stepsWithin], h⟩
    | _ => cases h
  | succ fuel ih =>
    cases v with
    | null => exact ⟨[], by rw [stepsWithin], h⟩
    | node n =>
      obtain ⟨_, r, henter, h⟩ := bind_apply_eq_ok.mp h
      obtain ⟨_, w, hrise, htrace⟩ := bind_apply_eq_ok.mp h
      obtain ⟨u, hhandle, rfl⟩ := thenRise_eq_ok hrise
      obtain ⟨ops, hops, hrun⟩ := handleNode_eq_ok.mp hhandle
      obtain ⟨inner, hinner, hsteps⟩ := exists_expand (fun v s t => ih) hrun
      refine ⟨_, stepsWithin_node_eq_ok.mpr ⟨fuel, ops, inner, rfl, hops, hinner, rfl⟩, ?_⟩
      refine Step.runAll_append_eq_ok.mpr ⟨u, Step.runAll_cons_eq_ok.mpr ⟨r, henter, hsteps⟩, ?_⟩
      exact Step.runAll_cons_eq_ok.mpr ⟨t, htrace, rfl⟩
    | _ => exact (refuse_ne_ok _ _ _ _ h).elim

theorem exists_steps (h : visit cfg v parent s = .ok () t) :
    ∃ ss, v.steps cfg parent = .ok ss ∧ Step.runAll cfg ss s = .ok () t :=
  exists_stepsWithin h

theorem exists_stepsOfAll {vs : List Value} (h : visitAll (visit cfg) parent vs s = .ok () t) :
    ∃ ss, Value.stepsOfAll cfg parent vs = .ok ss ∧ Step.runAll cfg ss s = .ok () t := by
  have hmap : Op.runAll cfg (visit cfg) parent (vs.map .visit) = visitAll (visit cfg) parent vs :=
    forM_map
  exact exists_expand (fun v s t => exists_steps) (hmap ▸ h)

end Check

section Provenance

variable {cfg : Setup} {among : Node → Prop} {below : Node → Node → Prop} {n parent : Node}
  {ops : List Op}

/-- Whether a step is one of a visit: the nodes that are visited are `among` some nodes, and each of
them is `below` the node that it is visited for. -/
def Step.IsOf (cfg : Setup) (among : Node → Prop) (below : Node → Node → Prop) : Step → Prop
  | .enter n parent => below n parent
  | .take n op => among n ∧ op.IsFrom cfg n ∧ ∀ v, op ≠ .visit v
  | .leave n => among n

/-- Whether a step is one of a visit where all nodes are `among` some nodes. -/
def Step.IsFrom (cfg : Setup) (among : Node → Prop) (step : Step) : Prop :=
  step.IsOf cfg among fun n parent => among n ∧ among parent

/-- The values that a step can be about are among some. -/
structure Covers (nodes : Node → Prop) (values : Value → Prop) : Prop where
  node : ∀ n, nodes n → values (.node n)
  target : ∀ n v, nodes n → n.get "target" = .ok v → values v

theorem isOf_expand {steps : Value → Except Fault (List Step)} {ss : List Step}
    (h : Op.expand steps n ops = .ok ss)
    (hops : ∀ op ∈ ops, (∀ v, op ≠ .visit v) → among n ∧ op.IsFrom cfg n)
    (hsteps : ∀ v ss, .visit v ∈ ops → steps v = .ok ss → ∀ step ∈ ss, step.IsOf cfg among below) :
    ∀ step ∈ ss, step.IsOf cfg among below := by
  induction ops generalizing ss with
  | nil =>
    cases h
    simp
  | cons op rest ih =>
    obtain ⟨hop, hrest⟩ := forall_mem_cons.mp hops
    have hlater (v : Value) (ss : List Step) (hv : .visit v ∈ rest) (hss : steps v = .ok ss) :=
      hsteps v ss (mem_cons_of_mem _ hv) hss
    have hplain (hne : ∀ v, op ≠ .visit v) : ∀ step ∈ ss, step.IsOf cfg among below := by
      obtain ⟨more, hmore, rfl⟩ := (Op.expand_cons_eq_ok hne).mp h
      obtain ⟨hn, hfrom⟩ := hop hne
      exact forall_mem_cons.mpr ⟨⟨hn, hfrom, hne⟩, ih hmore hrest hlater⟩
    cases op with
    | visit v =>
      obtain ⟨first, more, hfirst, hmore, rfl⟩ := Op.expand_visit_eq_ok.mp h
      exact forall_mem_append.mpr
        ⟨hsteps v first mem_cons_self hfirst, ih hmore hrest hlater⟩
    | _ => exact hplain fun _ h => nomatch h

theorem NodeOf.mem_taken_of_visit (h : n.script cfg = .ok ((), ops)) {v : Value}
    (hv : .visit v ∈ ops) : v ∈ (n.taken cfg.dialect).map (·.2) := by
  have hlegs := n.takes_script cfg () ops h []
  have hmem {kinds ends : List ScopeKind} {ps : List Leg} {ops : List Op}
      (hlegs : Op.legs? kinds ops = some (ps, ends)) (hv : .visit v ∈ ops) : ∃ p ∈ ps, p.2 = v := by
    induction ops generalizing kinds ps with
    | nil => cases hv
    | cons op rest ih =>
      cases op with
      | visit w =>
        obtain ⟨⟨qs, ends'⟩, hrest, heq⟩ := Option.map_eq_some_iff.mp hlegs
        cases heq
        rcases mem_cons.mp hv with heq | hv
        · cases heq
          exact ⟨_, mem_cons_self, rfl⟩
        · obtain ⟨p, hp, rfl⟩ := ih hrest hv
          exact ⟨p, mem_cons_of_mem _ hp, rfl⟩
      | opens kind => exact ih hlegs ((mem_cons.mp hv).resolve_left nofun)
      | closes =>
        cases kinds with
        | nil => cases hlegs
        | cons kind kinds => exact ih hlegs ((mem_cons.mp hv).resolve_left nofun)
      | _ => exact ih hlegs ((mem_cons.mp hv).resolve_left nofun)
  obtain ⟨p, hp, rfl⟩ := hmem hlegs hv
  obtain ⟨q, hq, rfl⟩ := mem_map.mp hp
  exact mem_map.mpr ⟨q, hq, rfl⟩

section Visits

variable (hclosed : ∀ m k, among m → .node k ∈ (m.taken cfg.dialect).map (·.2) → among k ∧ below k m)
  {steps : List Step}

include hclosed

theorem isOf_stepsWithin {fuel : Nat} {v : Value} (h : stepsWithin cfg fuel v parent = .ok steps)
    (hv : ∀ m, v = .node m → among m ∧ below m parent) :
    ∀ step ∈ steps, step.IsOf cfg among below := by
  induction fuel generalizing v parent steps with
  | zero =>
    cases v with
    | null =>
      rw [stepsWithin] at h
      cases h
      simp
    | _ => cases h
  | succ fuel ih =>
    cases v with
    | null =>
      rw [stepsWithin] at h
      cases h
      simp
    | node n =>
      obtain ⟨_, ops, inner, hfuel, hops, hinner, rfl⟩ := stepsWithin_node_eq_ok.mp h
      cases hfuel
      obtain ⟨hn, hbelow⟩ := hv n rfl
      have hinside := isOf_expand hinner (fun op hop _ => ⟨hn, n.isFrom_script cfg () ops hops op hop⟩)
        fun v ss hmem hss => ih hss fun m hm =>
          hclosed n m hn (hm ▸ NodeOf.mem_taken_of_visit hops hmem)
      rw [cons_append]
      refine forall_mem_cons.mpr ⟨hbelow, forall_mem_append.mpr ⟨hinside, ?_⟩⟩
      simpa [Step.IsOf] using hn
    | _ => cases h

theorem isOf_stepsOfAll {vs : List Value} (h : Value.stepsOfAll cfg parent vs = .ok steps)
    (hvs : ∀ m, .node m ∈ vs → among m ∧ below m parent) :
    ∀ step ∈ steps, step.IsOf cfg among below := by
  refine isOf_expand h (fun op hop hne => ?_) fun v ss hmem hss => ?_
  · obtain ⟨v, -, rfl⟩ := mem_map.mp hop
    exact absurd rfl (hne v)
  · obtain ⟨w, hw, heq⟩ := mem_map.mp hmem
    cases heq
    exact isOf_stepsWithin hclosed hss fun m hm => hvs m (hm ▸ hw)

end Visits

end Provenance

section Height

variable {cfg : Setup} {n parent : Node} {steps : List Step}

/-- The number of open scopes after a step, if there are `k` before it. -/
def Step.after? (k : Nat) : Step → Option Nat
  | .take _ (.opens _) => some (k + 1)
  | .take _ .closes => if k = 0 then none else some (k - 1)
  | _ => some k

def Step.height? (k : Nat) (steps : List Step) : Option Nat := steps.foldlM Step.after? k

theorem Step.height?_cons (k : Nat) (step : Step) (steps : List Step) :
    Step.height? k (step :: steps) = (step.after? k).bind (Step.height? · steps) :=
  foldlM_cons

theorem Step.height?_append (k : Nat) (steps more : List Step) :
    Step.height? k (steps ++ more) = (Step.height? k steps).bind (Step.height? · more) :=
  foldlM_append

theorem height?_expand {below : Value → Except Fault (List Step)} {ops : List Op}
    (h : Op.expand below n ops = .ok steps)
    (hbelow : ∀ v ss, below v = .ok ss → ∀ k, Step.height? k ss = some k)
    {kinds ends : List ScopeKind} {ps : List Leg} (hlegs : Op.legs? kinds ops = some (ps, ends)) :
    Step.height? kinds.length steps = some ends.length := by
  induction ops generalizing kinds ps steps with
  | nil =>
    cases h
    cases hlegs
    rfl
  | cons op rest ih =>
    have hplain (hne : ∀ v, op ≠ .visit v) : ∃ more, Op.expand below n rest = .ok more ∧
        steps = .take n op :: more := (Op.expand_cons_eq_ok hne).mp h
    cases op with
    | visit v =>
      obtain ⟨first, more, hfirst, hmore, rfl⟩ := Op.expand_visit_eq_ok.mp h
      obtain ⟨⟨qs, ends'⟩, hrest, heq⟩ := Option.map_eq_some_iff.mp hlegs
      cases heq
      rw [Step.height?_append, hbelow v first hfirst, Option.bind_some]
      exact ih hmore hrest
    | opens kind =>
      obtain ⟨more, hmore, rfl⟩ := hplain fun _ h => nomatch h
      rw [Step.height?_cons]
      exact ih hmore hlegs
    | closes =>
      obtain ⟨more, hmore, rfl⟩ := hplain fun _ h => nomatch h
      cases kinds with
      | nil => cases hlegs
      | cons kind kinds =>
        rw [Step.height?_cons]
        exact ih hmore hlegs
    | _ =>
      obtain ⟨more, hmore, rfl⟩ := hplain fun _ h => nomatch h
      rw [Step.height?_cons]
      exact ih hmore hlegs

/-- A visit closes the scopes that it has opened, and no others. -/
theorem height?_stepsWithin {fuel : Nat} {v : Value} (h : stepsWithin cfg fuel v parent = .ok steps)
    (k : Nat) : Step.height? k steps = some k := by
  induction fuel generalizing v parent steps k with
  | zero =>
    cases v with
    | null =>
      rw [stepsWithin] at h
      cases h
      rfl
    | _ => cases h
  | succ fuel ih =>
    cases v with
    | null =>
      rw [stepsWithin] at h
      cases h
      rfl
    | node n =>
      obtain ⟨_, ops, inner, hfuel, hops, hinner, rfl⟩ := stepsWithin_node_eq_ok.mp h
      cases hfuel
      have hlegs := n.takes_script cfg () ops hops (replicate k .function)
      have hheight := height?_expand hinner (fun v ss hss => ih hss) hlegs
      rw [length_replicate] at hheight
      rw [cons_append, Step.height?_cons]
      refine (Step.height?_append k inner _).trans ?_
      rw [hheight]
      rfl
    | _ => cases h

theorem height?_stepsOfAll {vs : List Value} (h : Value.stepsOfAll cfg parent vs = .ok steps)
    (k : Nat) : Step.height? k steps = some k := by
  have hlegs := Script.takes_visits vs () _ rfl (replicate k .function)
  have hheight := height?_expand h (fun v ss hss => height?_stepsWithin hss) hlegs
  rwa [length_replicate] at hheight

end Height

section Doctests

variable {cfg : Setup} {n parent : Node} {steps : List Step}

def Step.isDoctests : Step → Bool
  | .take _ op => op.isDoctests
  | _ => false

theorem expand_filter {below other : Value → Except Fault (List Step)} {ops : List Op}
    (h : Op.expand below n ops = .ok steps)
    (hbelow : ∀ v ss, below v = .ok ss → other v = .ok (ss.filter (!·.isDoctests))) :
    Op.expand other n (ops.filter (!·.isDoctests)) = .ok (steps.filter (!·.isDoctests)) := by
  induction ops generalizing steps with
  | nil =>
    cases h
    rfl
  | cons op rest ih =>
    have hplain (hne : ∀ v, op ≠ .visit v) : Op.expand other n ((op :: rest).filter (!·.isDoctests)) =
        .ok (steps.filter (!·.isDoctests)) := by
      obtain ⟨more, hmore, rfl⟩ := (Op.expand_cons_eq_ok hne).mp h
      have hstep : (Step.take n op).isDoctests = op.isDoctests := rfl
      rw [filter_cons, filter_cons, hstep]
      split
      · exact (Op.expand_cons_eq_ok hne).mpr ⟨_, ih hmore, rfl⟩
      · exact ih hmore
    cases op with
    | visit v =>
      obtain ⟨first, more, hfirst, hmore, rfl⟩ := Op.expand_visit_eq_ok.mp h
      rw [filter_append]
      exact Op.expand_visit_eq_ok.mpr ⟨_, _, hbelow v first hfirst, ih hmore, rfl⟩
    | _ => exact hplain fun _ h => nomatch h

/-- Without a look at docstrings a visit takes the same steps but for the work on docstrings. -/
theorem stepsWithin_withDoctests {fuel : Nat} {v : Value}
    (h : stepsWithin (cfg.withDoctests true) fuel v parent = .ok steps) :
    stepsWithin (cfg.withDoctests false) fuel v parent = .ok (steps.filter (!·.isDoctests)) := by
  induction fuel generalizing v parent steps with
  | zero =>
    cases v with
    | null =>
      rw [stepsWithin] at h ⊢
      cases h
      rfl
    | _ => cases h
  | succ fuel ih =>
    cases v with
    | null =>
      rw [stepsWithin] at h ⊢
      cases h
      rfl
    | node n =>
      obtain ⟨_, ops, inner, hfuel, hops, hinner, rfl⟩ := stepsWithin_node_eq_ok.mp h
      cases hfuel
      refine stepsWithin_node_eq_ok.mpr ⟨fuel, _, _, rfl, n.drops_script cfg () ops hops,
        expand_filter hinner fun v ss hss => ih hss, ?_⟩
      rw [filter_append, filter_cons]
      rfl
    | _ => cases h

theorem stepsOfAll_withDoctests {vs : List Value}
    (h : Value.stepsOfAll (cfg.withDoctests true) parent vs = .ok steps) :
    Value.stepsOfAll (cfg.withDoctests false) parent vs =
      .ok (steps.filter (!·.isDoctests)) := by
  have hvisits : (vs.map Op.visit).filter (!·.isDoctests) = vs.map .visit := by
    rw [filter_eq_self]
    intro op hop
    obtain ⟨v, -, rfl⟩ := mem_map.mp hop
    rfl
  have hexpand := expand_filter h fun v ss hss => stepsWithin_withDoctests hss
  rwa [hvisits] at hexpand

end Doctests

/-- Whether future imports may still stand behind the node: it is a `from` import or a string
literal. -/
def NodeOf.sparesFutures (n : Node) : Bool :=
  (Value.node n).isKind "ImportFrom" || (Check.isDocstring (.node n)).toOption.getD false

/-- What a step can make of a state. -/
inductive Step.Leads (cfg : Setup) (s : State) : Step → State → Prop where
  | enter (m n : Node) {moved trace allowed} : s.Shifts m moved →
      allowed = (s.futuresAllowed && m.sparesFutures) → Leads cfg s (.enter m n)
        (State.entered { s with moved := moved, trace := trace, futuresAllowed := allowed } m n)
  | leave (n : Node) {trace} : Leads cfg s (.leave n) { s.risen with trace := trace }
  | act (n : Node) {a t} : a.run cfg s = .ok () t → Leads cfg s (.take n (.act a)) t
  | late (n : Node) {names t} : s.Says [.lateFutureImport] t → (if s.futuresAllowed then t = s
      else ∃ args, Check.report cfg .lateFutureImport (.node n) args s = .ok () t) →
      Leads cfg s (.take n (.late names)) t
  | future (n : Node) {b top rest t} : s.stack = top :: rest →
      Check.bind cfg n { b with used := some ⟨top, .node n⟩ } true s = .ok () t →
      Leads cfg s (.take n (.future b)) t
  | opens (n : Node) (kind : ScopeKind) : Leads cfg s (.take n (.opens kind)) (s.opened kind)
  | closes (n : Node) {id rest} : s.stack = id :: rest →
      Leads cfg s (.take n .closes) (s.closed id rest)
  | guards (n : Node) (names : List Datum) : Leads cfg s (.take n (.guards names)) (s.guarded names)
  | unguards (n : Node) : Leads cfg s (.take n .unguards) s.unguarded
  | defers (n : Node) {task entries} : s.queue .functions = some entries →
      Leads cfg s (.take n (.defers task)) (s.withTask .functions entries task)

variable {cfg : Setup} {s t : State} {step : Step}

namespace Check

variable {m n : Node}

theorem closeFutures_frame (h : closeFutures (.node n) s = .ok () t) :
    ∃ allowed, allowed = (s.futuresAllowed && n.sparesFutures) ∧
      t = { s with futuresAllowed := allowed } := by
  replace h := get_bind_eq_ok.mp h
  split at h
  · rename_i hallowed
    rw [hallowed, Bool.true_and, NodeOf.sparesFutures]
    split at h
    · rename_i hkind
      obtain ⟨found, hfound, h⟩ := lift_bind_eq_ok.mp h
      have hother : (Value.node n).isKind "ImportFrom" = false := by simpa using hkind
      rw [hfound, hother]
      cases found <;> cases h
      · exact ⟨_, rfl, rfl⟩
      · exact ⟨_, rfl, hallowed ▸ rfl⟩
    · rename_i hkind
      cases h
      exact ⟨true, by simp_all, hallowed ▸ rfl⟩
  · rename_i hallowed
    cases h
    exact ⟨false, by simp [hallowed], Bool.eq_false_iff.mpr hallowed ▸ rfl⟩

theorem leads_of_enterNode (h : enterNode cfg m n s = .ok () t) :
    Step.Leads cfg s (.enter m n) t := by
  obtain ⟨_, t₁, hshift, h⟩ := bind_apply_eq_ok.mp h
  obtain ⟨_, t₂, htrace, h⟩ := bind_apply_eq_ok.mp h
  obtain ⟨_, t₃, hclose, h⟩ := bind_apply_eq_ok.mp h
  obtain ⟨trace, rfl⟩ := traceLine_frame htrace
  obtain ⟨allowed, hallowed, rfl⟩ := closeFutures_frame hclose
  cases h
  obtain ⟨hshifts, hframe⟩ := shiftNode_eq_ok hshift
  have hsame : t₁.futuresAllowed = s.futuresAllowed := congrArg (·.futuresAllowed) hframe
  have hleads := @Step.Leads.enter cfg s m n t₁.moved trace allowed hshifts (hsame ▸ hallowed)
  rw [hframe]
  exact hleads

/-- The outcomes of a step of a visit. -/
theorem leads_of_run {among : Node → Prop} {below : Node → Node → Prop}
    (hstep : step.IsOf cfg among below) (h : step.run cfg s = .ok () t) :
    Step.Leads cfg s step t := by
  cases step with
  | enter m n => exact leads_of_enterNode h
  | leave n =>
    obtain ⟨_, _, hrise, htrace⟩ := bind_apply_eq_ok.mp h
    cases hrise
    obtain ⟨trace, rfl⟩ := traceLine_frame htrace
    exact .leave n
  | take n op =>
    cases op with
    | act a => exact .act n h
    | late names =>
      replace h := get_bind_eq_ok.mp h
      split at h
      · rename_i hallowed
        obtain ⟨ds, r, hds, hreport⟩ := bind_apply_eq_ok.mp h
        have hreads : Reads (names.mapM datum) := ends_mapM fun v _ => reads_datum v
        obtain rfl := hreads.ok hds
        refine .late n ((told_report mem_cons_self _ _).ok hreport) ?_
        rw [if_neg (by simpa using hallowed)]
        exact ⟨_, hreport⟩
      · rename_i hallowed
        cases h
        exact .late n (.refl _) (by rw [if_pos (by simpa using hallowed)])
    | future b =>
      obtain ⟨top, rest, scope, hstack, -, h⟩ := current_bind_eq_ok h
      exact .future n hstack h
    | visit v => exact absurd rfl (hstep.2.2 v)
    | opens kind =>
      cases h
      exact .opens n kind
    | closes =>
      obtain ⟨id, rest, hstack, rfl⟩ := popScope_eq_ok h
      exact .closes n hstack
    | guards names =>
      cases h
      exact .guards n names
    | unguards =>
      cases h
      exact .unguards n
    | defers task =>
      obtain ⟨entries, hentries, rfl⟩ := defer_eq_ok h
      exact .defers n hentries

end Check

namespace Step

/-- What each step keeps, all keep. -/
theorem runAll_invariant {P : State → Prop} {among : Node → Prop} {below : Node → Node → Prop}
    (hstep : ∀ (step : Step) s t, step.IsOf cfg among below → step.Leads cfg s t → P s → P t)
    {steps : List Step} (hsteps : ∀ step ∈ steps, step.IsOf cfg among below)
    (h : runAll cfg steps s = .ok () t) (hs : P s) : P t := by
  induction steps generalizing s with
  | nil =>
    cases h
    exact hs
  | cons step rest ih =>
    obtain ⟨hfirst, hrest⟩ := forall_mem_cons.mp hsteps
    obtain ⟨r, hr, hlater⟩ := runAll_cons_eq_ok.mp h
    exact ih hrest hlater (hstep step s r hfirst (Check.leads_of_run hfirst hr) hs)

def marks (s : State) : Step → List (Nat × Mark)
  | .enter m n => (m.id, ⟨s.depth + 1, s.lineage n⟩) :: s.marks
  | _ => s.marks

def depth (k : Nat) : Step → Nat
  | .enter _ _ => k + 1
  | .leave _ => k - 1
  | _ => k

variable (h : step.Leads cfg s t)

include h

/-- Only entering and leaving a node changes the marks and the depth, and no step the shift or the
numbers for further nodes. -/
theorem Leads.outline : t.marks = step.marks s ∧ t.depth = step.depth s.depth ∧
    t.shift = s.shift ∧ t.nextNode = s.nextNode := by
  have hof {r : State} (h : s.Alike r) : r.marks = s.marks ∧ r.depth = s.depth ∧
      r.shift = s.shift ∧ r.nextNode = s.nextNode :=
    ⟨h.marks_eq, h.depth_eq, h.shift_eq, h.nextNode_eq⟩
  cases h with
  | enter | leave | opens | closes | guards | unguards | defers => exact ⟨rfl, rfl, rfl, rfl⟩
  | @act n a _ ha => exact hof ((a.run_mild cfg).ok ha)
  | late _ hspeech => exact hof hspeech.alike
  | future _ _ hbind => exact hof ((Check.mild_bind _ _ _ _).ok hbind)

theorem Leads.marks_eq : t.marks = step.marks s := h.outline.1

theorem Leads.depth_eq : t.depth = step.depth s.depth := h.outline.2.1

theorem Leads.shift_eq : t.shift = s.shift := h.outline.2.2.1

theorem Leads.nextNode_eq : t.nextNode = s.nextNode := h.outline.2.2.2

/-- A step moves at most the node that it enters, and that only under a shift. -/
theorem Leads.moved_cases : t.moved = s.moved ∨
    ∃ m n p shift, step = .enter m n ∧ s.shift = some shift ∧ t.moved = (m.id, p) :: s.moved := by
  cases h with
  | enter m n hshifts =>
    cases hshifts with
    | stays => exact .inl rfl
    | moves hshift => exact .inr ⟨m, n, _, _, rfl, hshift, rfl⟩
  | leave | opens | closes | guards | unguards | defers => exact .inl rfl
  | @act n a _ ha => exact .inl ((a.run_steady cfg).ok ha).moved_eq
  | late _ hspeech => exact .inl hspeech.moved_eq
  | future _ _ hbind => exact .inl ((Check.steady_bind _ _ _ _).ok hbind).moved_eq

end Step

end ScopeLint
