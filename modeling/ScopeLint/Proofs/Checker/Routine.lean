import ScopeLint.Proofs.Checker.Script

/-! # How rules are put together

A rule is put together from steps on names and messages, from scopes and guards that it opens and
closes again, from work that it puts off, and from visits of values below its node. The rules are
gone through once, side by side with their scripts. Whatever holds of each of those parts and of
sequences of them then holds of every rule. -/
namespace ScopeLint

open List

/-- Whether a task is one that the rule of `n` puts off. -/
def Task.IsOf (n : Node) : Task → Prop
  | .body m _ => m = n ∧ n.isFunction = true
  | .doctests m => m = n
  | .assignments | .returns _ => False

/-- Whether the node imports features that are to come, whose names count as used at once. -/
def NodeOf.isFutureImport (n : Node) : Bool :=
  Rule.of? n.kind == some .importFrom && (n.get "module").toOption.any (·.text? == some "__future__")

/-- What a statement that names its bindings itself binds: a function, a class, or imports. -/
inductive Binding.StatedBy (n : Node) : Binding → Prop where
  | function (name : Datum) (signature : Signature) : Rule.of? n.kind = some .functionDef →
      Signature.ofFunction n = .ok signature →
      StatedBy n (.fresh name (.function signature) (.node n))
  | classDefinition (name : Datum) : StatedBy n (.fresh name .classDefinition (.node n))
  | importation (full : String) (used : Option Use) : used.isSome = n.isFutureImport →
      StatedBy n { Binding.importation full (.node n) with used }

def Act.IsOf (n : Node) : Act → Prop
  | .bind m b reportsHidden => m = n ∧ b.StatedBy n ∧ reportsHidden = true
  | .report k _ _ => k ∈ Kind.walked
  | _ => True

/-- Whether a step binds nothing that counts as used at once but in the scope on top. -/
def Act.UsesTop (s : State) : Act → Prop
  | .bind _ b _ => ∀ use, b.used = some use → s.stack.head? = some use.scope
  | _ => True

/-- The kinds of which a rule itself gives reports. -/
def Kind.ofRules : List Kind := [duplicateArgument, bareExcept]

/-- A binding that nothing has used, made by the node. -/
structure Binding.IsNew (n : Node) (b : Binding) : Prop where
  used : b.used = none
  source : b.source = .node n

/-- Whether a step on names is one of the rule for the node. -/
def Act.IsFrom (n : Node) : Act → Prop
  | .load v => v = .node n ∨ n.get "target" = .ok v
  | .store m | .delete m | .globals m | .locals m | .star m _ | .callee m | .shadowing m _ => m = n
  | .bind m b _ => m = n ∧ b.IsNew n
  | .lateImports => True
  | .report k _ _ => k ∈ Kind.ofRules

theorem Act.IsFrom.usesTop {n : Node} {a : Act} (h : a.IsFrom n) (s : State) : a.UsesTop s := by
  cases a with
  | bind m b reportsHidden =>
    intro use huse
    cases h.2.used.symm.trans huse
  | _ => trivial

/-- Whether a step is one of the rule for the node, the visits aside. -/
def Op.IsFrom (cfg : Setup) (n : Node) : Op → Prop
  | .act a => a.IsFrom n
  | .future b => b.IsNew n
  | .late _ => n.isFutureImport = true
  | .opens kind => kind ≠ .module ∧ kind ≠ .function
  | .guards _ | .unguards => Rule.of? n.kind = some .tryBlock
  | .defers (.body m _) => m = n ∧ n.isFunction = true
  | .defers (.doctests m) => m = n ∧ cfg.doctests = true
  | .defers _ => False
  | .visit _ | .closes => True

namespace Check

/-- The report of future imports that come too late. Their names are read for the report only. -/
def reportLate (cfg : Setup) (n : Node) (names : Except Fault (List Value)) : Check Unit := do
  if !(← get).futuresAllowed then
    let vs ← lift names
    report cfg .lateFutureImport (.node n) [.list (← vs.mapM datum)]

def bindFuture (cfg : Setup) (n : Node) (b : Binding) : Check Unit := do
  let (top, _) ← current
  bind cfg n { b with used := some ⟨top, .node n⟩ } true

/-- A step of the rule for `n`, for whatever visits are made below `n`: the scopes that it opens, the
values that it visits, the work that it puts off, and its script. -/
inductive Routine (cfg : Setup) (n : Node) : {α : Type} → List ScopeKind → List Leg → List Duty →
    (Visit → Check α) → Script α → Prop where
  | pure {α : Type} (a : α) : Routine cfg n [] [] [] (fun _ => pure a) (pure a)
  | throw {α : Type} {ks ps ds} (e : Fault) :
      Routine cfg n ks ps ds (fun _ => (throw e : Check α)) (Script.fail e)
  | bind {α β : Type} {ks ls ps qs ds es} {x : Visit → Check α} {f : α → Visit → Check β}
      {xs : Script α} {fs : α → Script β} : Routine cfg n ks ps ds x xs →
      (∀ a ops, xs = .ok (a, ops) → Routine cfg n ls qs es (f a) (fs a)) →
      Routine cfg n (ks ++ ls) (ps ++ qs) (ds ++ es) (fun v => x v >>= fun a => f a v) (xs >>= fs)
  | act (a : Act) : a.IsOf n → a.IsFrom n →
      Routine cfg n [] [] [] (fun _ => a.run cfg) (Script.emit (.act a))
  | future (b : Binding) :
      (∀ top, Act.IsOf n (.bind n { b with used := some ⟨top, .node n⟩ } true)) → b.IsNew n →
      Routine cfg n [] [] [] (fun _ => bindFuture cfg n b) (Script.emit (.future b))
  | late {α : Type} {ks ps ds} {x : Visit → Check α} {xs : Script α}
      (names : Except Fault (List Value)) : n.isFutureImport = true →
      Routine cfg n ks ps ds x xs → (∀ r, xs = .ok r → ∃ vs, names = .ok vs) →
      Routine cfg n ks ps ds (fun v => do reportLate cfg n names; x v) (do
        Script.emit (.late (← Script.lift names))
        xs)
  | visit (value : Value) :
      Routine cfg n [] (legs [value]) [] (fun v => v value n) (Script.emit (.visit value))
  | scope {ks vs ds} {x : Visit → Check Unit} {xs : Script Unit} (kind : ScopeKind) :
      kind ≠ .module ∧ kind ≠ .function → Routine cfg n ks (legs vs) ds x xs →
      Routine cfg n (kind :: ks) (legsIn kind vs) ds (fun v => inScope kind (x v))
        (Script.inScope kind xs)
  | guard {ks ps ds} {x : Visit → Check Unit} {xs : Script Unit} (names : List Datum) :
      Rule.of? n.kind = some .tryBlock → Routine cfg n ks ps ds x xs →
      Routine cfg n ks ps ds (fun v => underGuard (.list names) (x v)) (Script.underGuard names xs)
  | defers {duty} (task : Task) : task.IsOf n → (Op.defers task).IsFrom cfg n →
      task.duty? = some duty →
      Routine cfg n [] [] [duty] (fun _ => defer .functions task) (Script.emit (.defers task))

section Scripted

variable {cfg : Setup} {below : Visit} {n : Node} {α β : Type}

/-- The script says what the step does: the two succeed together, and then the step consists of the
steps of the script. -/
structure Scripted (cfg : Setup) (below : Visit) (n : Node) {α : Type} (act : Check α)
    (script : Script α) : Prop where
  eq_runAll : ∀ a ops, script = .ok (a, ops) → act = (do Op.runAll cfg below n ops; return a)
  exists_ops : ∀ s a t, act s = .ok a t → ∃ ops, script = .ok (a, ops)

theorem scripted_pure (a : α) : Scripted cfg below n (pure a) (pure a) where
  eq_runAll := by
    intro b ops h
    cases h
    rfl
  exists_ops := by
    intro s b t h
    cases h
    exact ⟨[], rfl⟩

theorem scripted_throw (e : Fault) : Scripted cfg below n (throw e : Check α) (Script.fail e) where
  eq_runAll := fun _ _ h => nomatch h
  exists_ops := fun _ _ _ h => nomatch h

theorem scripted_emit (op : Op) : Scripted cfg below n (op.run cfg below n) (Script.emit op) where
  eq_runAll := by
    intro a ops h
    cases h
    rw [Op.runAll_cons, Op.runAll_nil, bind_pure_unit, bind_pure_unit]
  exists_ops := fun _ _ _ _ => ⟨[op], rfl⟩

theorem Scripted.bind {x : Check α} {f : α → Check β} {xs : Script α} {fs : α → Script β}
    (hx : Scripted cfg below n x xs)
    (hf : ∀ a ops, xs = .ok (a, ops) → Scripted cfg below n (f a) (fs a)) :
    Scripted cfg below n (x >>= f) (xs >>= fs) where
  eq_runAll := by
    intro b ops h
    obtain ⟨a, first, rest, ha, hb, rfl⟩ := Script.bind_eq_ok.mp h
    rw [hx.eq_runAll a first ha, bind_assoc, Op.runAll_append, bind_assoc]
    congr 1
    funext _
    rw [pure_bind]
    exact (hf a first ha).eq_runAll b rest hb
  exists_ops := by
    intro s b u h
    obtain ⟨a, t, ha, hb⟩ := bind_apply_eq_ok.mp h
    obtain ⟨first, hfirst⟩ := hx.exists_ops s a t ha
    obtain ⟨rest, hrest⟩ := (hf a first hfirst).exists_ops t b u hb
    exact ⟨first ++ rest, Script.bind_eq_ok.mpr ⟨a, first, rest, hfirst, hrest, rfl⟩⟩

/-- The names are read only where it is too late for them, but then they can be read. -/
theorem scripted_late {names : Except Fault (List Value)} {rest : Check α}
    {rests : Script α} (hrest : Scripted cfg below n rest rests)
    (hnames : ∀ r, rests = .ok r → ∃ vs, names = .ok vs) :
    Scripted cfg below n (do reportLate cfg n names; rest) (do
      Script.emit (.late (← Script.lift names))
      rests) where
  eq_runAll := by
    intro a ops h
    obtain ⟨vs, _, _, hvs, hlate, rfl⟩ := Script.bind_eq_ok.mp h
    obtain ⟨rfl, rfl⟩ := Script.lift_eq_ok.mp hvs
    obtain ⟨_, _, others, hemit, hothers, rfl⟩ := Script.bind_eq_ok.mp hlate
    cases hemit
    rw [nil_append, singleton_append, Op.runAll_cons, bind_assoc,
      ← hrest.eq_runAll a others hothers]
    rfl
  exists_ops := by
    intro s b t h
    obtain ⟨_, u, -, hu⟩ := bind_apply_eq_ok.mp h
    obtain ⟨ops, hops⟩ := hrest.exists_ops u b t hu
    obtain ⟨vs, rfl⟩ := hnames _ hops
    exact ⟨_, Script.bind_eq_ok.mpr ⟨vs, [], _, rfl,
      Script.bind_eq_ok.mpr ⟨(), _, ops, rfl, hops, rfl⟩, rfl⟩⟩

end Scripted

section Ends

variable {cfg : Setup} {n : Node} {w : Ending}
  (hact : ∀ (a : Act) (s : State), a.IsOf n ∧ a.UsesTop s → EndsAt w (a.run cfg) s)

include hact

theorem ends_reportLate (names : Except Fault (List Value)) : Ends w (reportLate cfg n names) := by
  refine ends_get.bind fun s => ?_
  split
  · refine (ends_lift _).bind fun vs => ?_
    refine (ends_mapM fun v _ => (reads_datum v).ends).bind fun shown => ?_
    exact fun s => hact (.report .lateFutureImport (.node n) _) s
      ⟨by simp [Act.IsOf, Kind.walked], trivial⟩
  · exact ends_pure _

theorem ends_bindFuture {b : Binding}
    (hof : ∀ top, Act.IsOf n (.bind n { b with used := some ⟨top, .node n⟩ } true)) :
    Ends w (bindFuture cfg n b) := by
  refine fun s => (reads_current.ends s).bind fun found t hfound => ?_
  obtain ⟨rfl, ⟨rest, hstack⟩, -⟩ := current_eq_ok hfound
  refine hact (.bind n _ true) _ ⟨hof found.1, fun use huse => ?_⟩
  cases huse
  exact congrArg head? hstack

end Ends

namespace Routine

variable {cfg : Setup} {n : Node} {α β : Type} {ks ls : List ScopeKind} {ps qs : List Leg}
  {ds es : List Duty} {x : Visit → Check α} {xs : Script α} {f : α → Visit → Check β}
  {fs : α → Script β} {p : Prop} {_ : Decidable p}

theorem scripted (h : Routine cfg n ks ps ds x xs) (below : Visit) :
    Scripted cfg below n (x below) xs := by
  induction h with
  | pure a => exact scripted_pure a
  | throw e => exact scripted_throw e
  | bind _ _ ihx ihf => exact ihx.bind ihf
  | act a _ _ => exact scripted_emit (.act a)
  | future b _ _ => exact scripted_emit (.future b)
  | late names _ _ hnames ih => exact scripted_late ih hnames
  | visit value => exact scripted_emit (.visit value)
  | scope kind _ _ ih =>
    exact (scripted_emit (.opens kind)).bind fun _ _ _ => ih.bind fun _ _ _ =>
      scripted_emit .closes
  | guard names _ _ ih =>
    exact (scripted_emit (.guards names)).bind fun _ _ _ => ih.bind fun _ _ _ =>
      scripted_emit .unguards
  | defers task _ _ _ => exact scripted_emit (.defers task)

theorem exists_ops (h : Routine cfg n ks ps ds x xs) {below : Visit} {a : α}
    (ha : ∃ s t, x below s = .ok a t) : ∃ ops, xs = .ok (a, ops) := by
  obtain ⟨s, t, ha⟩ := ha
  exact (h.scripted below).exists_ops s a t ha

theorem of_eq (h : Routine cfg n ks ps ds x xs) (hks : ks = ls) (hps : ps = qs) (hds : ds = es) :
    Routine cfg n ls qs es x xs := by
  rwa [← hks, ← hps, ← hds]

theorem names_bind (hx : Routine cfg n [] [] [] x xs)
    (hf : ∀ a ops, xs = .ok (a, ops) → Routine cfg n ks ps ds (f a) (fs a)) :
    Routine cfg n ks ps ds (fun v => x v >>= fun a => f a v) (xs >>= fs) :=
  hx.bind hf

theorem bind_names (hx : Routine cfg n ks ps ds x xs)
    (hf : ∀ a, Routine cfg n [] [] [] (f a) (fs a)) :
    Routine cfg n ks ps ds (fun v => x v >>= fun a => f a v) (xs >>= fs) :=
  (hx.bind fun a _ _ => hf a).of_eq (append_nil _) (append_nil _) (append_nil _)

theorem lift_bind {y : Except Fault α} (hf : ∀ a, y = .ok a → Routine cfg n ks ps ds (f a) (fs a)) :
    Routine cfg n ks ps ds (fun v => lift y >>= fun a => f a v) (Script.lift y >>= fs) := by
  cases y with
  | error e => exact .throw e
  | ok a =>
    refine Routine.names_bind (.pure a) fun b ops hb => ?_
    cases hb
    exact hf a rfl

theorem ite {y : Visit → Check α} {ys : Script α} (hx : p → Routine cfg n ks ps ds x xs)
    (hy : ¬p → Routine cfg n ks ps ds y ys) :
    Routine cfg n ks ps ds (fun v => if p then x v else y v) (if p then xs else ys) := by
  by_cases h : p
  · simpa only [if_pos h] using hx h
  · simpa only [if_neg h] using hy h

/-- A step on names and messages that is taken on a condition, and what comes after it in any case. -/
theorem before {first : Visit → Check Unit} {firsts : Script Unit} {rest : Unit → Visit → Check α}
    {rests : Unit → Script α} (h : p → Routine cfg n [] [] [] first firsts)
    (hrest : ∀ u, Routine cfg n ks ps ds (rest u) (rests u)) :
    Routine cfg n ks ps ds (fun v => if p then first v >>= fun u => rest u v else rest () v)
      (if p then firsts >>= rests else rests ()) :=
  ite (fun hp => (h hp).names_bind fun u _ _ => hrest u) fun _ => hrest ()

theorem forM {f : α → Visit → Check Unit} {fs : α → Script Unit} (items : List α)
    (hf : ∀ a, Routine cfg n [] [] [] (f a) (fs a)) :
    Routine cfg n [] [] [] (fun v => items.forM fun a => f a v) (items.forM fs) := by
  induction items with
  | nil => exact .pure ()
  | cons a rest ih => exact (hf a).names_bind fun _ _ _ => ih

end Routine

section Rules

variable {cfg : Setup} {n : Node} {ps : List Leg} {args module : Value} {ops : List Op}
  {rule : Rule} {ps : Parameters}

theorem routine_visitAll (values : List Value) : Routine cfg n [] (legs values) []
    (fun v => visitAll v n values) (Script.visits values) := by
  induction values with
  | nil => exact .pure ()
  | cons value rest ih => exact (Routine.visit value).bind fun _ _ _ => ih

theorem routine_visitItems (name : String) :
    Routine cfg n [] (legs ((Value.node n).itemsIn name)) [] (fun v => visitItems v n name)
      (Script.visitItems n name) := by
  refine Routine.lift_bind fun items hitems => ?_
  obtain ⟨w, hget, hi⟩ := ScopeLint.bind_eq_ok.mp hitems
  have hw : (Value.node n).get name = .ok w := hget
  rw [Value.itemsIn_of_get hw hi]
  exact routine_visitAll items

theorem routine_visitField (name : String) :
    Routine cfg n [] (legs ((Value.node n).valueIn name)) [] (fun v => visitField v n name)
      (Script.visitField n name) := by
  refine Routine.lift_bind fun w hw => ?_
  have hw : (Value.node n).get name = .ok w := hw
  rw [Value.valueIn_of_get hw]
  exact .visit w

theorem visitAll_children (visit : Visit) (n : Node) :
    visitAll visit n (n.children.map .node) = visitChildren visit n :=
  forM_map

theorem routine_visitChildren :
    Routine cfg n [] (legs (n.children.map .node)) [] (fun v => visitChildren v n)
      (Script.visitChildren n) := by
  simp only [← visitAll_children]
  exact routine_visitAll _

theorem routine_ruleListComp : Routine cfg n [] (legs (Rule.handed cfg.dialect n .listComp)) []
    (fun v => ruleListComp v n) (Script.ofRule cfg n .listComp) := by
  rw [Rule.handed, legs_append]
  exact (routine_visitItems _).bind fun _ _ _ => routine_visitField _

theorem routine_ruleDictComp :
    Routine cfg n [.generator] (legsIn .generator (Rule.handed cfg.dialect n .dictComp)) []
      (fun v => ruleDictComp v n) (Script.ofRule cfg n .dictComp) := by
  refine .scope .generator (by decide) ?_
  rw [Rule.handed, append_assoc, legs_append, legs_append]
  exact (routine_visitItems _).bind fun _ _ _ => (routine_visitField _).bind fun _ _ _ =>
    routine_visitField _

theorem routine_ruleName : Routine cfg n [] [] [] (fun _ => ruleName cfg n) (Script.forName n) := by
  refine Routine.lift_bind fun context _ => Routine.ite (fun _ => ?_) fun _ => ?_
  · exact (Routine.act (.load (.node n)) trivial (.inl rfl)).names_bind fun _ _ _ =>
      .act (.locals n) trivial rfl
  · refine Routine.ite (fun _ => .act (.store n) trivial rfl) fun _ => ?_
    exact Routine.ite (fun _ => .act (.delete n) trivial rfl) fun _ => .throw _

theorem routine_ruleFor : Routine cfg n [] (legs (n.children.map .node)) []
    (fun v => ruleFor cfg v n) (Script.forLoop n) := by
  refine Routine.lift_bind fun target _ => Routine.lift_bind fun names _ => ?_
  refine (Routine.forM names fun name => ?_).names_bind fun _ _ _ => routine_visitChildren
  exact .act (.shadowing n name) trivial rfl

theorem routine_duplicate (name : Datum) :
    Routine cfg n [] [] [] (fun _ => report cfg .duplicateArgument (.node n) [name])
      (Script.duplicate n name) :=
  .act (.report .duplicateArgument (.node n) [name]) (by simp [Act.IsOf, Kind.walked])
    (by simp [Act.IsFrom, Kind.ofRules])

theorem routine_tupleParameters (fuel : Nat) (names : List Datum) (args : List Value) :
    Routine cfg n [] [] [] (fun _ => tupleParameters cfg n fuel names args)
      (Script.tupleParameters n fuel names args) := by
  induction fuel generalizing names args with
  | zero =>
    rw [tupleParameters, Script.tupleParameters]
    exact .throw _
  | succ fuel ih =>
    cases args with
    | nil =>
      rw [tupleParameters, Script.tupleParameters]
      · exact .pure _
      · simp
      · simp
    | cons arg rest =>
      rw [tupleParameters, Script.tupleParameters]
      refine Routine.ite (fun _ => ?_) fun _ => ?_
      · exact Routine.lift_bind fun items _ => (ih names items).names_bind fun found _ _ =>
          ih found rest
      · refine Routine.lift_bind fun name _ => Routine.before (fun _ => routine_duplicate _) ?_
        exact fun _ => ih (names ++ [name.datum]) rest

theorem routine_plainParameters (args : Value) :
    Routine cfg n [] [] [] (fun _ => plainParameters cfg n args)
      (Script.plainParameters cfg.dialect n args) := by
  refine Routine.ite (fun _ => ?_) fun _ => ?_
  · refine Routine.lift_bind fun items _ => (routine_tupleParameters _ _ _).names_bind ?_
    exact fun names _ _ => Routine.lift_bind fun defaults _ => .pure _
  · refine Routine.lift_bind fun all _ => Routine.lift_bind fun both _ => ?_
    exact Routine.lift_bind fun defaults _ => .pure _

theorem routine_reportDuplicates (before names : List Datum) :
    Routine cfg n [] [] [] (fun _ => reportDuplicates cfg n before names)
      (Script.reportDuplicates n before names) := by
  induction names generalizing before with
  | nil => exact .pure _
  | cons name rest ih =>
    exact Routine.before (fun _ => routine_duplicate name) fun _ => ih (before ++ [name])

theorem routine_parametersOf (args : Value) :
    Routine cfg n [] [] [] (fun _ => parametersOf cfg n args) (Script.parametersOf cfg n args) := by
  refine (routine_plainParameters args).names_bind fun plain _ _ => ?_
  refine Routine.lift_bind fun more _ => Routine.lift_bind fun ps _ => ?_
  exact Routine.ite (fun _ => Routine.lift_bind fun returned _ => .pure _) fun _ => .pure _

theorem routine_checkParameters (ps : Parameters) :
    Routine cfg n [] [] [] (fun _ => checkParameters cfg n ps)
      (Script.checkParameters cfg.dialect n ps) := by
  refine Routine.ite (fun _ => ?_) fun _ => .pure _
  refine (Routine.forM _ fun name => ?_).names_bind fun _ _ _ => routine_reportDuplicates [] ps.names
  exact Routine.lift_bind fun _ _ => .pure _

theorem itemsIn_of_add {v : Value} {one other : String} {all : List Value}
    (h : (do (← (← v.get one).add (← v.get other)).items) = .ok all) :
    v.itemsIn one ++ v.itemsIn other = all := by
  obtain ⟨first, hfirst, h⟩ := ScopeLint.bind_eq_ok.mp h
  obtain ⟨second, hsecond, h⟩ := ScopeLint.bind_eq_ok.mp h
  obtain ⟨sum, hsum, hi⟩ := ScopeLint.bind_eq_ok.mp h
  obtain ⟨xs, ys, hxs, hys, rfl⟩ := Value.items_of_add hsum hi
  rw [Value.itemsIn_of_get hfirst hxs, Value.itemsIn_of_get hsecond hys]

theorem map_annotations {args : List Value} {both : List (Datum × Value)}
    (h : (args.mapM fun arg => do
      let annotated ← arg.get "annotation"
      return ((← arg.get "arg").datum, annotated)) = .ok both) :
    both.map (·.2) = args.flatMap (·.valueIn "annotation") := by
  replace h := mapM_eq_ok.mp h
  induction h with
  | nil => rfl
  | cons hpair _ ih =>
    obtain ⟨found, hfound, hpair⟩ := ScopeLint.bind_eq_ok.mp hpair
    obtain ⟨argument, -, hpair⟩ := ScopeLint.bind_eq_ok.mp hpair
    cases hpair
    rw [map_cons, ih, flatMap_cons, Value.valueIn_of_get hfound]
    rfl

/-- The parameters before the starred ones have all of their annotations and all defaults. -/
theorem plainParameters_around {d : Dialect} (h : Script.plainParameters d n args = .ok (ps, ops)) :
    ps.annotations = NodeOf.plainAnnotations d args ∧
      ∀ items, ps.defaults.items = .ok items → items = NodeOf.parameterDefaults d args := by
  unfold Script.plainParameters at h
  split at h
  · rename_i htwo
    obtain ⟨items, _, _, -, h, -⟩ := Script.bind_eq_ok.mp h
    obtain ⟨names, _, _, -, h, -⟩ := Script.bind_eq_ok.mp h
    obtain ⟨defaults, _, _, hd, h, -⟩ := Script.bind_eq_ok.mp h
    cases h
    have hd := (Script.lift_eq_ok.mp hd).1
    refine ⟨by simp [NodeOf.plainAnnotations, htwo], fun items hi => ?_⟩
    simp [NodeOf.parameterDefaults, htwo, Value.itemsIn_of_get hd hi]
  · rename_i htwo
    obtain ⟨all, _, _, hall, h, -⟩ := Script.bind_eq_ok.mp h
    obtain ⟨both, _, _, hboth, h, -⟩ := Script.bind_eq_ok.mp h
    obtain ⟨defaults, _, _, hd, h, -⟩ := Script.bind_eq_ok.mp h
    cases h
    have hall := (Script.lift_eq_ok.mp hall).1
    have hboth := (Script.lift_eq_ok.mp hboth).1
    have hd := (Script.lift_eq_ok.mp hd).1
    constructor
    · simp only [NodeOf.plainAnnotations, if_neg htwo, itemsIn_of_add hall]
      exact map_annotations hboth
    · intro items hi
      obtain ⟨first, hfirst, hd⟩ := ScopeLint.bind_eq_ok.mp hd
      obtain ⟨second, hsecond, hsum⟩ := ScopeLint.bind_eq_ok.mp hd
      obtain ⟨xs, ys, hxs, hys, rfl⟩ := Value.items_of_add hsum hi
      simp only [NodeOf.parameterDefaults, if_neg htwo, Value.itemsIn_of_get hfirst hxs,
        Value.itemsIn_of_get hsecond hys]

/-- A starred parameter adds its annotation if it is there, where there can be one. -/
theorem starredParameter_around {starred : Parameters} {name : String}
    (h : starredParameter cfg n args ps name = .ok starred) :
    starred.defaults = ps.defaults ∧ starred.annotations = ps.annotations ++
      if n.has "returns" then NodeOf.annotationGiven cfg.dialect args name else [] := by
  obtain ⟨found, hfound, h⟩ := ScopeLint.bind_eq_ok.mp h
  have hthere : (args.valueIn name).any Value.truthy = found.truthy := by
    simp [Value.valueIn_of_get hfound]
  dsimp only at h
  split at h
  · rename_i hfalsy
    cases h
    have hfalsy : found.truthy = false := by simpa using hfalsy
    simp [ NodeOf.annotationGiven, hthere, hfalsy]
  · rename_i htruthy
    have hgiven : NodeOf.annotationGiven cfg.dialect args name =
        NodeOf.annotationStarred cfg.dialect args name := by
      rw [ NodeOf.annotationGiven, hthere, if_pos (by simpa using htruthy)]
    split at h
    · rename_i hreturns
      obtain ⟨annotated, ha, h⟩ := ScopeLint.bind_eq_ok.mp h
      cases h
      refine ⟨rfl, ?_⟩
      rw [if_pos hreturns, hgiven, NodeOf.annotationStarred]
      unfold annotationStarred at ha
      split at ha
      · rename_i hd
        rw [if_pos hd, Value.valueIn_of_get hfound, flatMap_singleton, Value.valueIn_of_get ha]
      · rename_i hd
        rw [if_neg hd, Value.valueIn_of_get ha]
    · rename_i hreturns
      cases h
      simp [hreturns]

theorem parametersOf_outside {outside : List Value}
    (hargs : n.get "args" = .ok args) (h : Script.parametersOf cfg n args = .ok (ps, ops))
    (ho : (do (← (Value.list ps.annotations).add ps.defaults).items) = .ok outside) :
    outside.filter Value.truthy = n.outside cfg.dialect := by
  have hargs : (Value.node n).get "args" = .ok args := hargs
  obtain ⟨plain, _, _, hplain, h, -⟩ := Script.bind_eq_ok.mp h
  obtain ⟨more, _, _, hmore, h, -⟩ := Script.bind_eq_ok.mp h
  obtain ⟨all, _, _, hall, h, -⟩ := Script.bind_eq_ok.mp h
  obtain ⟨hannotations, hdefaults⟩ := plainParameters_around hplain
  obtain ⟨hsame, hfirst⟩ := starredParameter_around (Script.lift_eq_ok.mp hmore).1
  obtain ⟨hsame', hsecond⟩ := starredParameter_around (Script.lift_eq_ok.mp hall).1
  rw [hfirst, hannotations] at hsecond
  rw [← hsame, ← hsame'] at hdefaults
  obtain ⟨sum, hsum, hi⟩ := ScopeLint.bind_eq_ok.mp ho
  obtain ⟨xs, ys, hxs, hys, rfl⟩ := Value.items_of_add hsum hi
  obtain rfl := Except.ok.inj hxs
  rw [NodeOf.outside, Value.valueIn_of_get hargs, flatMap_singleton]
  split at h
  · rename_i hreturns
    obtain ⟨returns, _, _, hget, h, -⟩ := Script.bind_eq_ok.mp h
    have hannotation : (Value.node n).get "returns" = .ok returns := (Script.lift_eq_ok.mp hget).1
    cases h
    rw [hdefaults ys hys, hsecond, Value.valueIn_of_get hannotation]
    simp [hreturns]
  · rename_i hreturns
    cases h
    have hnone : (Value.node n).valueIn "returns" = [] := by
      have hfield : n.field? "returns" = none := by simpa [NodeOf.has] using hreturns
      simp [Value.valueIn, Value.get, NodeOf.get, hfield, Except.toOption]
    rw [hdefaults ys hys, hsecond, hnone]
    simp [hreturns]

theorem routine_ruleLambda (hfunction : n.isFunction = true) :
    Routine cfg n [] (legs (n.outside cfg.dialect)) [.body n] (fun v => ruleLambda cfg v n)
      (Script.lambda cfg n) := by
  refine Routine.lift_bind fun args hargs => ?_
  refine (routine_parametersOf args).names_bind fun ps ops hps => ?_
  refine (routine_checkParameters ps).names_bind fun _ _ _ => ?_
  refine Routine.lift_bind fun outside houtside => ?_
  rw [← parametersOf_outside hargs hps houtside]
  refine Routine.of_eq ((routine_visitAll _).bind fun _ _ _ => ?_) rfl (append_nil _) rfl
  exact .defers (.body n ps.names) ⟨rfl, hfunction⟩ ⟨rfl, hfunction⟩ rfl

theorem routine_doctests (h : cfg.doctests = true) :
    Routine cfg n [] [] (if cfg.doctests then [.doctests n] else [])
      (fun _ => defer .functions (.doctests n)) (Script.emit (.defers (.doctests n))) := by
  have hof : Task.IsOf n (.doctests n) := rfl
  rw [if_pos h]
  exact .defers (.doctests n) hof ⟨rfl, h⟩ rfl

theorem routine_ruleFunctionDef (hrule : Rule.of? n.kind = some .functionDef) :
    Routine cfg n [] (Rule.taken cfg.dialect n .functionDef) (Rule.duties cfg n .functionDef)
      (fun v => ruleFunctionDef cfg v n) (Script.functionDef cfg n) := by
  have hfunction : n.isFunction = true := by simp [NodeOf.isFunction, hrule]
  rw [Rule.taken, legs_append]
  refine (routine_visitItems _).bind fun _ _ _ => Routine.lift_bind fun name _ => ?_
  refine Routine.lift_bind fun signature hsignature => ?_
  have hstated : Act.IsOf n (.bind n (.fresh name.datum (.function signature) (.node n)) true) :=
    ⟨rfl, .function _ signature hrule hsignature, rfl⟩
  refine (Routine.act _ hstated ⟨rfl, rfl, rfl⟩).names_bind fun _ _ _ => ?_
  refine Routine.of_eq ((routine_ruleLambda hfunction).bind fun _ _ _ => ?_) rfl
    (append_nil _) rfl
  exact Routine.ite routine_doctests fun h => (Routine.pure ()).of_eq rfl rfl (if_neg h).symm

theorem routine_ruleClassDef : Routine cfg n [.classBody] (Rule.taken cfg.dialect n .classDef)
    (Rule.duties cfg n .classDef) (fun v => ruleClassDef cfg v n) (Script.classDef cfg n) := by
  have hbody : Routine cfg n [] (legs ((Value.node n).itemsIn "body"))
      (Rule.duties cfg n .classDef) (fun v => do
        if cfg.doctests then defer .functions (.doctests n)
        visitItems v n "body") (do
        if cfg.doctests then Script.emit (.defers (.doctests n))
        Script.visitItems n "body") := by
    refine Routine.ite (fun h => ?_) fun h => ?_
    · exact ((routine_doctests h).bind fun _ _ _ => routine_visitItems _).of_eq rfl rfl
        (append_nil _)
    · exact (routine_visitItems _).of_eq rfl rfl (if_neg h).symm
  have hrest : Routine cfg n [.classBody] (legsIn .classBody ((Value.node n).itemsIn "body"))
      (Rule.duties cfg n .classDef) (fun v => do
        inScope .classBody do
          if cfg.doctests then defer .functions (.doctests n)
          visitItems v n "body"
        let name ← lift (n.get "name")
        bind cfg n (.fresh name.datum .classDefinition (.node n)) true) (do
        Script.inScope .classBody do
          if cfg.doctests then Script.emit (.defers (.doctests n))
          Script.visitItems n "body"
        let name ← Script.lift (n.get "name")
        Script.emit (.act (.bind n (.fresh name.datum .classDefinition (.node n)) true))) :=
    (Routine.scope .classBody (by decide) hbody).bind_names fun _ => Routine.lift_bind fun name _ =>
      .act (.bind n _ true) ⟨rfl, .classDefinition _, rfl⟩ ⟨rfl, rfl, rfl⟩
  rw [Rule.taken, legs_append, legs_append, append_assoc, append_assoc]
  refine (routine_visitItems _).bind fun _ _ _ => (routine_visitItems _).bind fun _ _ _ => ?_
  -- the keywords, in the dialects that have them
  cases cfg.dialect.isTwo with
  | true => exact hrest
  | false => exact (routine_visitItems "keywords").bind fun _ _ _ => hrest

theorem routine_ruleImport (hrule : Rule.of? n.kind = some .importNames) :
    Routine cfg n [] [] [] (fun _ => ruleImport cfg n) (Script.importNames n) := by
  have hfuture : (none : Option Use).isSome = n.isFutureImport := by
    simp [NodeOf.isFutureImport, hrule]
  refine Routine.lift_bind fun items _ => Routine.forM items fun item => ?_
  refine Routine.lift_bind fun full _ => ?_
  exact .act (.bind n _ true) ⟨rfl, .importation full none hfuture, rfl⟩ ⟨rfl, rfl, rfl⟩

/-- The names of future imports can be read where each of them can be imported. -/
theorem exists_names {items : List Value} {r : Unit × List Op}
    (h : items.forM (Script.importFromItem n module) = .ok r) :
    ∃ names, items.mapM (fun item => item.get "name") = .ok names := by
  refine exists_mapM_eq_ok fun item hitem => ?_
  obtain ⟨⟨_, _⟩, hscript⟩ := Script.exists_ok_of_forM h item hitem
  obtain ⟨name, _, _, hname, -, -⟩ := Script.bind_eq_ok.mp hscript
  exact ⟨name, (Script.lift_eq_ok.mp hname).1⟩

/-- The report that comes too late, before the rest of its rule. -/
theorem reportLate_bind (cfg : Setup) (n : Node) (names : Except Fault (List Value))
    (rest : Check Unit) : (do reportLate cfg n names; rest) = (do
      if !(← get).futuresAllowed then
        let vs ← lift names
        report cfg .lateFutureImport (.node n) [.list (← vs.mapM datum)]
      rest) := by
  rw [reportLate, bind_assoc]
  congr 1
  funext s
  split
  · simp only [bind_assoc]
  · rw [pure_bind]

theorem routine_visitOthers (holds : Node → Except Fault Bool) (children : List Node) :
    Routine cfg n []
      (legs ((children.filter fun c => !((holds c).toOption).getD false).map .node)) []
      (fun v => children.forM fun c => do if !(← lift (holds c)) then v (.node c) n)
      (children.forM fun c => do
        if !(← Script.lift (holds c)) then Script.emit (.visit (.node c))) := by
  induction children with
  | nil => exact .pure ()
  | cons c rest ih =>
    have hfirst : Routine cfg n []
        (legs (([c].filter fun c => !((holds c).toOption).getD false).map .node)) []
        (fun v => do if !(← lift (holds c)) then v (.node c) n)
        (do if !(← Script.lift (holds c)) then Script.emit (.visit (.node c))) := by
      refine Routine.lift_bind fun held hheld => ?_
      cases held with
      | true => exact (Routine.pure ()).of_eq rfl (by simp [hheld, Except.toOption]) rfl
      | false => exact (Routine.visit (.node c)).of_eq rfl (by simp [hheld, Except.toOption]) rfl
    refine (hfirst.bind fun _ _ _ => ih).of_eq rfl ?_ rfl
    rw [← legs_append, ← map_append, ← filter_append, singleton_append]

theorem routine_ruleTry (hrule : Rule.of? n.kind = some .tryBlock) :
    Routine cfg n [] (legs (Rule.handed cfg.dialect n .tryBlock)) [] (fun v => ruleTry v n)
      (Script.tryBlock n) := by
  rw [Rule.handed, legs_append]
  refine Routine.lift_bind fun handlers _ => Routine.lift_bind fun caught _ => ?_
  refine (Routine.guard _ hrule (routine_visitItems "body")).bind fun _ _ _ => ?_
  exact routine_visitOthers (fun c => do (← n.get "body").holds c) n.children

theorem routine_ruleExceptHandler : Routine cfg n [] (legs (n.children.map .node)) []
    (fun v => ruleExceptHandler cfg v n) (Script.exceptHandler n) := by
  refine Routine.lift_bind fun type _ => Routine.before (fun _ => ?_) fun _ => ?_
  · exact .act (.report .bareExcept (.node n) []) (by simp [Act.IsOf, Kind.walked])
      (by simp [Act.IsFrom, Kind.ofRules])
  · exact Routine.lift_bind fun name _ =>
      Routine.before (fun _ => .act (.store n) trivial rfl) fun _ => routine_visitChildren

theorem of?_eq_some (h : ruleFor? n = .ok rule) : Rule.of? n.kind = some rule := by
  unfold ruleFor? at h
  split at h
  · rename_i found hfound
    cases h
    exact hfound
  · cases h

section

variable (hrule : Rule.of? n.kind = some .importFrom)

include hrule

theorem isFutureImport_eq (hmodule : n.get "module" = .ok module) :
    n.isFutureImport = (module.text? == some "__future__") := by
  simp [NodeOf.isFutureImport, hrule, hmodule, Except.toOption]

theorem routine_importFromItem (hmodule : n.get "module" = .ok module) (item : Value) :
    Routine cfg n [] [] [] (fun _ => importFromItem cfg n module item)
      (Script.importFromItem n module item) := by
  have hfuture := isFutureImport_eq hrule hmodule
  refine Routine.lift_bind fun name _ => Routine.ite (fun _ => .act (.star n module) trivial rfl) ?_
  refine fun _ => Routine.lift_bind fun full _ => Routine.ite (fun hmatch => ?_) fun hmatch => ?_
  · refine .future (.importation full (.node n)) (fun top => ?_) ⟨rfl, rfl⟩
    exact ⟨rfl, .importation full (some ⟨top, .node n⟩) (by simp [hfuture, hmatch]), rfl⟩
  · exact .act (.bind n _ true) ⟨rfl, .importation full none (by simpa [hfuture] using hmatch), rfl⟩
      ⟨rfl, rfl, rfl⟩

theorem routine_ruleImportFrom :
    Routine cfg n [] [] [] (fun _ => ruleImportFrom cfg n) (Script.importFrom n) := by
  refine Routine.lift_bind fun module hmodule => ?_
  have hitems : Routine cfg n [] [] []
      (fun _ => do (← lift (n.itemsOf "names")).forM (importFromItem cfg n module))
      (do (← Script.lift (n.itemsOf "names")).forM (Script.importFromItem n module)) :=
    Routine.lift_bind fun items _ => Routine.forM items (routine_importFromItem hrule hmodule)
  refine Routine.ite (fun hmatch => ?_) fun _ =>
    (Routine.act .lateImports trivial trivial).names_bind fun _ _ _ => hitems
  have hlate : n.isFutureImport = true := by simp [isFutureImport_eq hrule hmodule, hmatch]
  simp only [← reportLate_bind]
  refine .late _ hlate hitems ?_
  rintro ⟨_, _⟩ h
  obtain ⟨items, _, _, hread, hall, -⟩ := Script.bind_eq_ok.mp h
  obtain ⟨names, hnames⟩ := exists_names hall
  exact ⟨names, by rw [(Script.lift_eq_ok.mp hread).1]; exact hnames⟩

end

theorem routine_applyRule (hrule : Rule.of? n.kind = some rule) :
    Routine cfg n rule.scopes (rule.taken cfg.dialect n) (rule.duties cfg n)
      (fun v => applyRule cfg v n rule) (Script.ofRule cfg n rule) := by
  cases rule with
  | descend => exact routine_visitChildren
  | ignore => exact .pure ()
  | globalNames => exact .act (.globals n) trivial rfl
  | listComp => exact routine_ruleListComp
  | generatorExp => exact .scope .generator (by decide) routine_ruleListComp
  | dictComp => exact routine_ruleDictComp
  | forLoop => exact routine_ruleFor
  | name => exact routine_ruleName
  | call =>
    exact (Routine.act (.callee n) trivial rfl).names_bind fun _ _ _ => routine_visitChildren
  | functionDef => exact routine_ruleFunctionDef hrule
  | lambda => exact routine_ruleLambda (by simp [NodeOf.isFunction, hrule])
  | classDef => exact routine_ruleClassDef
  | assign =>
    rw [Rule.taken, Rule.handed, legs_append]
    · exact (routine_visitField _).bind fun _ _ _ => routine_visitItems _
    all_goals simp
  | augAssign =>
    rw [Rule.taken, Rule.handed, legs_append]
    · refine Routine.lift_bind fun target htarget => ?_
      refine (Routine.act (.load target) trivial (.inr htarget)).names_bind fun _ _ _ => ?_
      exact (routine_visitField _).bind fun _ _ _ => routine_visitField _
    all_goals simp
  | importNames => exact routine_ruleImport hrule
  | importFrom => exact routine_ruleImportFrom hrule
  | tryBlock => exact routine_ruleTry hrule
  | exceptHandler => exact routine_ruleExceptHandler

theorem routine_handleNode (cfg : Setup) (n : Node) :
    Routine cfg n n.scopes (n.taken cfg.dialect) (n.duties cfg) (fun v => handleNode cfg v n)
      (n.script cfg) := by
  refine Routine.lift_bind fun rule h => ?_
  have hrule := of?_eq_some h
  simp only [NodeOf.scopes, NodeOf.taken, NodeOf.duties, hrule]
  exact routine_applyRule hrule

theorem handleNode_eq_ok {below : Visit} {s t : State} : handleNode cfg below n s = .ok () t ↔
    ∃ ops, n.script cfg = .ok ((), ops) ∧ Op.runAll cfg below n ops s = .ok () t := by
  have hscript := (routine_handleNode cfg n).scripted below
  constructor
  · intro h
    obtain ⟨ops, hops⟩ := hscript.exists_ops s () t h
    rw [hscript.eq_runAll _ ops hops, bind_pure_unit] at h
    exact ⟨ops, hops, h⟩
  · rintro ⟨ops, hops, h⟩
    rwa [hscript.eq_runAll _ ops hops, bind_pure_unit]

end Rules

end Check

end ScopeLint
