import ScopeLint.Proofs.Checker.Workable
import ScopeLint.Proofs.Checker.Overlooked

/-! # Visits that get through

A visit fails at two places only: at a name that is there as a parameter, and where the list of
exported names is stored by a node that has no value next to it. From a sound state with open queues
every other visit of a node of the grammar gets through. -/
namespace ScopeLint

open List

variable {cfg : Setup} {s t : State} {kind : ScopeKind} {n : Node} {x : Site}
  {kinds : List ScopeKind} {d : Dialect} {name : String}

namespace State

variable {id : ScopeId} {rest : List ScopeId}

theorem Based.tail (h : s.Based (id :: rest)) (hrest : rest ≠ []) : s.Based rest := by
  obtain ⟨horder, inner, hstack, hinner⟩ := h
  cases inner with
  | nil =>
    obtain ⟨-, rfl⟩ := cons.inj hstack
    exact absurd rfl hrest
  | cons first inner =>
    obtain ⟨-, rfl⟩ := cons.inj hstack
    exact ⟨horder.of_cons, inner, rfl, fun id hid => hinner id (mem_cons_of_mem _ hid)⟩

/-- A sound state in which work can be put off. -/
structure Fit (cfg : Setup) (s : State) : Prop extends s.Sound cfg where
  functions : s.functions.isSome = true
  assignments : s.assignments.isSome = true

theorem Fit.alike (h : s.Fit cfg) (ha : s.Alike t) (ht : t.Sound cfg) : t.Fit cfg :=
  ⟨ht, ha.functions_eq ▸ h.functions, ha.assignments_eq ▸ h.assignments⟩

variable (h : s.Sound cfg)

include h

theorem Sound.step (horderly : t.Orderly) (hgrows : s.Grows t)
    (hmoved : t.moved = s.moved) (hshift : t.shift = s.shift)
    (hmarks : ∀ e ∈ t.marks, ∀ a ∈ e.2.ancestors, a.isFormed cfg.dialect = true)
    (hentries : ∀ id, t.entriesOf id ⊆ s.entriesOf id) (hfunctions : t.functions = s.functions)
    (hassignments : t.assignments = s.assignments) : t.Sound cfg where
  orderly := horderly
  moved_eq := hmoved.trans h.moved_eq
  shift_eq := hshift.trans h.shift_eq
  ancestors := hmarks
  entries := fun id e he => h.entries id e (hentries id he)
  bodies := fun i d ⟨entries, hq, hd⟩ => h.bodies i d ⟨entries, hfunctions.symm.trans hq, hd⟩
  verdicts := fun i d ⟨entries, hq, hd⟩ => by
    obtain ⟨hshift, htask, htop⟩ := h.verdicts i d ⟨entries, hassignments.symm.trans hq, hd⟩
    obtain ⟨id, hid, hkind⟩ := Option.bind_eq_some_iff.mp htop
    refine ⟨hshift, htask, ?_⟩
    rw [hid, Option.bind_some, hgrows.kindOf_eq id (lt_size_of_kindOf hkind), hkind]

theorem Sound.opened (hkind : kind ≠ .module) : (s.opened kind).Sound cfg := by
  refine h.step (h.orderly.opened hkind) (grows_opened s kind) rfl rfl h.ancestors ?_ rfl rfl
  intro id e he
  simp only [entriesOf, scope?, State.opened, Array.getElem?_push] at he
  split at he
  · simp [Scope.empty] at he
  · exact he

theorem Sound.closed (hstack : s.stack = id :: rest) (hrest : rest ≠ []) :
    (s.closed id rest).Sound cfg := by
  have hbased := h.orderly.stack_based
  rw [hstack] at hbased
  have hgrows := grows_closed s id rest
  refine h.step ?_ hgrows rfl rfl h.ancestors (fun _ _ h => h) rfl rfl
  refine h.orderly.step hgrows (hbased.tail hrest) ?_ (List.Subset.refl _)
  exact fun q i d hd => by cases q <;> exact hd

theorem Sound.guarded (names : List Datum) : (s.guarded names).Sound cfg :=
  h.step (h.orderly.guarded names) (grows_guarded s names) rfl rfl h.ancestors (fun _ _ h => h)
    rfl rfl

theorem Sound.unguarded : s.unguarded.Sound cfg :=
  h.step h.orderly.unguarded (grows_unguarded s) rfl rfl h.ancestors (fun _ _ h => h) rfl rfl

theorem Sound.risen : s.risen.Sound cfg :=
  h.step h.orderly.risen (grows_risen s) rfl rfl h.ancestors (fun _ _ h => h) rfl rfl

theorem Sound.entered (hn : n.isFormed cfg.dialect = true) (m : Node) :
    (s.entered m n).Sound cfg := by
  refine h.step (h.orderly.entered m n) (grows_entered s m n) rfl rfl ?_ (fun _ _ h => h) rfl rfl
  exact forall_mem_cons.mpr ⟨fun a ha => h.lineage hn ha, h.ancestors⟩

theorem Sound.withTask {entries : Array Deferred} (hentries : s.queue .functions = some entries)
    (hx : cfg.Visits x) (hfunction : x.node.isFunction = true) (names : List String) :
    (s.withTask .functions entries (.body x.node (names.map .text))).Sound cfg where
  orderly := h.orderly.withTask hentries _
  moved_eq := h.moved_eq
  shift_eq := h.shift_eq
  ancestors := h.ancestors
  entries := h.entries
  bodies := fun i d hd => by
    rcases (entry_withTask hentries).mp hd with hd | ⟨-, -, rfl⟩
    · exact h.bodies i d hd
    · refine ⟨h.shift_eq, x, _, hx, hfunction, rfl, fun name hname => ?_⟩
      obtain ⟨text, -, rfl⟩ := mem_map.mp hname
      exact ⟨text, rfl⟩
  verdicts := h.verdicts

end State

namespace Check

theorem exists_enterNode (hs : s.Sound cfg) {m : Node} (hm : m.isFormed cfg.dialect = true)
    (n : Node) : ∃ r, enterNode cfg m n s = .ok () (r.entered m n) ∧ s.Quiet r ∧ r.Sound cfg := by
  have hdocstring : ∃ b, isDocstring (.node m) = .ok b := by
    unfold isDocstring
    split
    · exact ⟨_, rfl⟩
    · split
      · rename_i hkind
        have hkind : m.kind = "Expr" := by simpa [Value.isKind] using hkind
        obtain ⟨v, hv, -⟩ := NodeOf.exists_get (f := .one "value" Grammar.expression) hm
          (NodeOf.hasField_of_kind hkind (by decide))
        have hv : m.get "value" = .ok v := hv
        exact ⟨_, by rw [Value.get, hv]; rfl⟩
      · exact ⟨_, rfl⟩
  obtain ⟨b, hb⟩ := hdocstring
  have hshift : shiftNode m s = .ok () s := by simp [shiftNode, hs.shift_eq]
  obtain ⟨r₁, htrace⟩ : ∃ r, traceLine cfg m.kind s = .ok () r := by
    unfold traceLine
    split <;> exact ⟨_, rfl⟩
  obtain ⟨r, hclose⟩ : ∃ r, closeFutures (.node m) r₁ = .ok () r := by
    cases hallowed : r₁.futuresAllowed with
    | false => exact ⟨r₁, by simp [closeFutures, hallowed]⟩
    | true =>
      by_cases hkind : (Value.node m).isKind "ImportFrom" = true
      · exact ⟨r₁, by simp [closeFutures, hkind]⟩
      · cases b <;> exact ⟨_, by simp [closeFutures, hallowed, hkind, hb, lift]; rfl⟩
  have hquiet :=
    ((told_traceLine m.kind).ok htrace).trans (((told_closeFutures (.node m)).ends cfg).ok hclose)
  refine ⟨r, ?_, hquiet, hs.quiet hquiet⟩
  refine bind_apply_eq_ok.mpr ⟨(), s, hshift, bind_apply_eq_ok.mpr ⟨(), r₁, htrace, ?_⟩⟩
  exact bind_apply_eq_ok.mpr ⟨(), r, hclose, rfl⟩

theorem safe_mapM_datum (vs : List Value) : Safe cfg (vs.mapM datum) := by
  induction vs with
  | nil => exact safe_pure _
  | cons v rest ih =>
    rw [mapM_cons]
    exact (safe_datum v).bind fun _ _ => ih.bind fun _ _ => safe_pure _

end Check

namespace State

variable {base : List ScopeId}

/-- Scopes of these kinds are open above the stack `base`. -/
def Stands (s : State) (base : List ScopeId) (kinds : List ScopeKind) : Prop :=
  ∃ ids, s.stack = ids ++ base ∧ ids.map s.kindOf = kinds.map some

theorem Stands.map_kindOf_eq {ids : List ScopeId} (h : ids.map s.kindOf = kinds.map some)
    (hg : s.Grows t) : ids.map t.kindOf = kinds.map some := by
  rw [← h, map_inj_left]
  intro id hid
  have hmem : s.kindOf id ∈ kinds.map some := h ▸ mem_map_of_mem hid
  obtain ⟨kind, -, hkind⟩ := mem_map.mp hmem
  exact hg.kindOf_eq id (lt_size_of_kindOf hkind.symm)

theorem Stands.mono (h : s.Stands base kinds) (hstack : t.stack = s.stack) (hg : s.Grows t) :
    t.Stands base kinds := by
  obtain ⟨ids, hids, hkinds⟩ := h
  exact ⟨ids, hstack.trans hids, map_kindOf_eq hkinds hg⟩

theorem Stands.opened (h : s.Stands base kinds) (kind : ScopeKind) :
    (s.opened kind).Stands base (kind :: kinds) := by
  obtain ⟨ids, hids, hkinds⟩ := h
  refine ⟨s.scopes.size :: ids, by simp [State.opened, hids], ?_⟩
  rw [map_cons, map_cons, kindOf_opened_size, map_kindOf_eq hkinds (s.grows_opened kind)]

theorem Stands.topKind (h : s.Stands base kinds) (hbase : base.head?.bind s.kindOf = some kind) :
    s.topKind = some (kinds.head?.getD kind) := by
  obtain ⟨ids, hids, hkinds⟩ := h
  cases ids with
  | nil =>
    obtain rfl : kinds = [] := by simpa using hkinds.symm
    rw [State.topKind, hids]
    exact hbase
  | cons id ids =>
    cases kinds with
    | nil => cases hkinds
    | cons first kinds =>
      rw [State.topKind, hids]
      exact (cons.inj hkinds).1

end State

namespace Check

theorem mild_late (names : List Value) (below : Visit) :
    Mild (Op.run cfg below n (.late names)) := by
  refine ends_get.bind fun s => ?_
  split
  · have hreads : Reads (names.mapM datum) := ends_mapM fun v _ => reads_datum v
    exact hreads.ends.bind fun ds => Steady.mild ((told_anyReport _ _ _).ends cfg)
  · exact ends_pure _

theorem mild_future (b : Binding) (below : Visit) : Mild (Op.run cfg below n (.future b)) :=
  reads_current.ends.bind fun _ => mild_bind _ _ _ _

theorem safe_late (hcfg : cfg.Plain) (hn : n.IsPlaced cfg.dialect) (names : List Value)
    (below : Visit) : Safe cfg (Op.run cfg below n (.late names)) := by
  refine sure_get.bind fun s _ => ?_
  split
  · exact (safe_mapM_datum names).bind fun _ _ => safe_report hcfg ⟨n, rfl, hn⟩ (.one _ (by simp))
  · exact safe_pure _

theorem safe_future (hcfg : cfg.Plain) (hn : n.IsPlaced cfg.dialect) {b : Binding}
    (hb : b.Sound cfg.dialect) (below : Visit) : Safe cfg (Op.run cfg below n (.future b)) := by
  refine sure_current.bind fun ⟨top, scope⟩ _ => safe_bind hcfg hn ?_ true
  refine ⟨hb.name, hb.source, ?_⟩
  rintro _ ⟨⟩
  exact ⟨n, rfl, hn⟩

/-- From the state the step gets through to a ready state, and comes back to the stack that it has
found. -/
def Completes (cfg : Setup) (act : Check Unit) (s : State) : Prop :=
  ∃ t, act s = .ok () t ∧ t.Fit cfg ∧ t.stack = s.stack ∧ s.Grows t

/-- Harmless steps get through if the visits among them do. -/
theorem exists_runAll (hcfg : cfg.Plain) (hx : cfg.Visits x) (base : List ScopeId)
    (hbase : base ≠ []) (kind : ScopeKind) {ops : List Op} {kinds ends : List ScopeKind}
    {ps : List Leg} (hlegs : Op.legs? kinds ops = some (ps, ends))
    (hops : ∀ op ∈ ops, op.Harmless cfg x.node)
    (hvisit : ∀ p ∈ ps, ∀ s : State, s.Fit cfg → s.topKind = some (p.1.getD kind) →
      p.2.IsNodal → Completes cfg (visit cfg p.2 x.node) s) (hs : s.Fit cfg)
    (htop : base.head?.bind s.kindOf = some kind) (hstands : s.Stands base kinds) :
    ∃ t, Op.runAll cfg (visit cfg) x.node ops s = .ok () t ∧ t.Fit cfg ∧ t.Stands base ends ∧
      s.Grows t := by
  induction ops generalizing kinds ps s with
  | nil =>
    cases hlegs
    exact ⟨s, rfl, hs, hstands, .refl s⟩
  | cons op rest ih =>
    obtain ⟨hop, hrest⟩ := forall_mem_cons.mp hops
    -- one step, and then the others from where it has led to
    have hnext {t : State} {kinds' : List ScopeKind} {ps' : List Leg}
        (hrun : op.run cfg (visit cfg) x.node s = .ok () t) (ht : t.Fit cfg)
        (hlegs : Op.legs? kinds' rest = some (ps', ends)) (hps : ps' ⊆ ps) (hg : s.Grows t)
        (hstands : t.Stands base kinds') : ∃ t,
        Op.runAll cfg (visit cfg) x.node (op :: rest) s = .ok () t ∧ t.Fit cfg ∧
          t.Stands base ends ∧ s.Grows t := by
      obtain ⟨id, hid, hkind⟩ := Option.bind_eq_some_iff.mp htop
      have htop' : base.head?.bind t.kindOf = some kind := by
        rw [hid, Option.bind_some, hg.kindOf_eq id (State.lt_size_of_kindOf hkind), hkind]
      obtain ⟨u, hu, hsound, hends, hgrows⟩ :=
        ih hlegs hrest (fun p hp => hvisit p (hps hp)) ht htop' hstands
      exact ⟨u, bind_apply_eq_ok.mpr ⟨(), t, hrun, hu⟩, hsound, hends, hg.trans hgrows⟩
    have hmild (hm : Mild (op.run cfg (visit cfg) x.node))
        (hsafe : Safe cfg (op.run cfg (visit cfg) x.node))
        (hlegs : Op.legs? kinds rest = some (ps, ends)) : ∃ t,
        Op.runAll cfg (visit cfg) x.node (op :: rest) s = .ok () t ∧ t.Fit cfg ∧
          t.Stands base ends ∧ s.Grows t := by
      obtain ⟨_, t, hrun, -, ht⟩ := hsafe s hs.toSound
      have halike := hm.ok hrun
      exact hnext hrun (hs.alike halike ht) hlegs (List.Subset.refl _) halike.grows
        (hstands.mono halike.stack_eq halike.grows)
    cases op with
    | act a =>
      refine hmild (a.run_mild cfg) ?_ hlegs
      cases a with
      | store m => exact hop.elim
      | _ => exact hop
    | late names => exact hmild (mild_late names _) (safe_late hcfg hop names _) hlegs
    | future b => exact hmild (mild_future b _) (safe_future hcfg hop.1 hop.2 _) hlegs
    | visit v =>
      rw [Op.legs?] at hlegs
      obtain ⟨⟨qs, ends'⟩, hqs, heq⟩ := Option.map_eq_some_iff.mp hlegs
      cases heq
      obtain ⟨t, ht, hsound, hstack, hgrows⟩ :=
        hvisit (kinds.head?, v) mem_cons_self s hs (hstands.topKind htop) hop
      exact hnext ht hsound hqs (subset_cons_self _ _) hgrows (hstands.mono hstack hgrows)
    | opens kind =>
      exact hnext rfl ⟨hs.opened hop, hs.functions, hs.assignments⟩ hlegs (List.Subset.refl _)
        (s.grows_opened kind) (hstands.opened kind)
    | closes =>
      cases kinds with
      | nil => cases hlegs
      | cons first kinds =>
        obtain ⟨ids, hids, hkinds⟩ := hstands
        cases ids with
        | nil => cases hkinds
        | cons id ids =>
          have hstack : s.stack = id :: (ids ++ base) := hids
          have hpop : popScope s = .ok () (s.closed id (ids ++ base)) := by
            simp [popScope, hstack, State.closed]
          have ht := hs.closed hstack (show ids ++ base ≠ [] by simp [hbase])
          refine hnext hpop ⟨ht, hs.functions, hs.assignments⟩ hlegs (List.Subset.refl _)
            (s.grows_closed id _) ⟨ids, rfl, ?_⟩
          exact (cons.inj hkinds).2
    | guards names =>
      exact hnext rfl ⟨hs.guarded names, hs.functions, hs.assignments⟩ hlegs (List.Subset.refl _)
        (s.grows_guarded names) (hstands.mono rfl (s.grows_guarded names))
    | unguards =>
      exact hnext rfl ⟨hs.unguarded, hs.functions, hs.assignments⟩ hlegs (List.Subset.refl _)
        s.grows_unguarded (hstands.mono rfl s.grows_unguarded)
    | defers task =>
      obtain ⟨hfunction, names, rfl⟩ := hop
      obtain ⟨entries, hentries⟩ := Option.isSome_iff_exists.mp hs.functions
      have hqueue : s.queue .functions = some entries := hentries
      have hdefer : defer .functions (.body x.node (names.map .text)) s =
          .ok () (s.withTask .functions entries (.body x.node (names.map .text))) := by
        simp [defer, hqueue, State.withTask]
      have hgrows := State.grows_withTask hqueue (.body x.node (names.map .text))
      exact hnext hdefer ⟨hs.withTask hqueue hx hfunction names, rfl, hs.assignments⟩ hlegs
        (List.Subset.refl _) hgrows (hstands.mono rfl hgrows)

theorem completes_visitAll {vs : List Value}
    (hvisit : ∀ v ∈ vs, ∀ s : State, s.Fit cfg → s.topKind = some kind →
      Completes cfg (visit cfg v n) s) (hs : s.Fit cfg) (htop : s.topKind = some kind) :
    Completes cfg (visitAll (visit cfg) n vs) s := by
  induction vs generalizing s with
  | nil => exact ⟨s, rfl, hs, rfl, .refl s⟩
  | cons v rest ih =>
    obtain ⟨hfirst, hrest⟩ := forall_mem_cons.mp hvisit
    obtain ⟨r, hr, hfit, hstack, hgrows⟩ := hfirst s hs htop
    obtain ⟨t, ht, hlast, hstack', hgrows'⟩ :=
      ih hrest hfit (State.topKind_of_grows hgrows hstack htop)
    exact ⟨t, bind_apply_eq_ok.mpr ⟨(), r, hr, ht⟩, hlast, hstack'.trans hstack,
      hgrows.trans hgrows'⟩

theorem completes_visitChildren
    (hvisit : ∀ m ∈ n.children, ∀ s : State, s.Fit cfg → s.topKind = some kind →
      Completes cfg (visit cfg (.node m) n) s) (hs : s.Fit cfg) (htop : s.topKind = some kind) :
    Completes cfg (visitChildren (visit cfg) n) s := by
  rw [← visitAll_children]
  refine completes_visitAll (fun v hv => ?_) hs htop
  obtain ⟨m, hm, rfl⟩ := mem_map.mp hv
  exact hvisit m hm

end Check

/-- Whether visits of the node bind the name as a store. -/
inductive NodeOf.Stores (n : Node) (name : String) : Prop where
  | target {context : Value} : n.kind = "Name" → n.get "id" = .ok (.text name) →
      n.get "ctx" = .ok context → (context.isKind "Store" || context.isKind "AugStore") = true →
      Stores n name
  | handler : n.kind = "ExceptHandler" → n.get "name" = .ok (.text name) → Stores n name

/-- Whether a check cannot get past the site: a name is there as a parameter, or the list of
exported names is stored where there is no value. -/
inductive Site.Stuck (x : Site) : Prop where
  | parameter {context : Value} : x.node.kind = "Name" → x.node.get "ctx" = .ok context →
      context.isKind "Param" = true → Stuck x
  | exports : x.scope = .module → x.node.Stores "__all__" →
      x.parent.kind ∉ ["For", "comprehension", "Tuple", "List"] → x.parent.field? "value" = none →
      Stuck x

namespace NodeOf

variable {p : Node}

theorem isPlaced_value (hp : p.IsWhole d) (hn : n ∈ p.children) {v : Value}
    (hv : p.field? "value" = some v) : v.IsPlaced d := by
  have htable : ∀ d : Dialect, ∀ q ∈ d.grammar, ∀ f ∈ q.fields, f.name = "value" →
      f = .one "value" Grammar.expression ∨ q.fields = [.optional "value" Grammar.expression] ∨
        q.fields = [.one "value" .constant] := by
    decide
  obtain ⟨q, hq⟩ := exists_madeBy hp.formed
  obtain ⟨f, hf, hname, hfits⟩ := (hq.rule_of_field? hv).resolve_right (by simp)
  have hget : p.get "value" = .ok v := by rw [get, hv]
  have hnode (hfits : Grammar.expression.fits d v = true) : v.IsPlaced d := by
    obtain ⟨m, rfl, hcategory⟩ := Content.fits_node hfits
    have hwhole := hp.child (mem_children_of_get hget mem_cons_self)
    exact ⟨m, rfl, isPlaced_of_category hwhole hcategory rfl⟩
  obtain ⟨g, hg, w, hw, hgfits, hnw, category, hcontent, -⟩ := hq.child hn
  rcases htable d q hq.mem f hf hname with rfl | hone | hone
  · exact hnode hfits
  -- what is below a node with one field is in that field
  · rw [hone, mem_singleton] at hg
    subst hg
    cases hget.symm.trans hw
    rcases FieldRule.fits_single hgfits (.inr rfl) with rfl | hfits
    · cases hnw
    · exact hnode hfits
  · rw [hone, mem_singleton] at hg
    subst hg
    cases hcontent

end NodeOf

namespace Setup.Visits

variable (hx : cfg.Visits x)

include hx

theorem parent_isWhole (hroot : cfg.root.Conforms cfg.dialect) : x.parent.IsWhole cfg.dialect :=
  hroot.whole.part hx.parent_mem

end Setup.Visits

namespace NodeOf

theorem kind_of_rule (h : n.isFormed d = true) {rule : Rule} (hrule : Rule.of? n.kind = some rule)
    (hown : rule.fields ≠ []) {kind : String}
    (htable : ∀ d : Dialect, ∀ p ∈ d.grammar, p.fields = rule.fields → p.kind = kind) :
    n.kind = kind := by
  obtain ⟨p, hp⟩ := exists_madeBy h
  exact hp.kind_eq ▸ htable d p hp.mem (hp.fields_eq hrule hown)

theorem kind_of_name (h : n.isFormed d = true) (hrule : Rule.of? n.kind = some .name) :
    n.kind = "Name" :=
  kind_of_rule h hrule (by decide) (by decide)

theorem kind_of_exceptHandler (h : n.isFormed d = true)
    (hrule : Rule.of? n.kind = some .exceptHandler) : n.kind = "ExceptHandler" :=
  kind_of_rule h hrule (by decide) (by decide)

theorem Stores.nameOf? (hs : n.Stores name) (h : n.isFormed d = true) :
    (Value.node n).nameOf? = some (.text name) := by
  cases hs with
  | target hkind hid _ _ =>
    obtain ⟨text, htext, hne⟩ := exists_identifier h "id" (hasField_of_kind hkind (by decide))
    rw [hid] at htext
    cases htext
    have htruthy : (Value.text name).truthy = true := by simpa [Value.truthy] using hne
    simp [Value.nameOf?, Value.nameOf, Value.field?, field?_of_get hid, htruthy, Value.datum]
  | handler hkind hname =>
    have htable : ∀ d : Dialect, ∀ p ∈ d.grammar, p.kind = "ExceptHandler" →
        ∀ f ∈ p.fields, f.name ≠ "id" := by
      decide
    have hid : n.field? "id" = none := by
      cases hfield : n.field? "id" with
      | none => rfl
      | some v =>
        obtain ⟨p, hp⟩ := exists_madeBy h
        obtain ⟨f, hf, hname, -⟩ := (hp.rule_of_field? hfield).resolve_right (by simp)
        exact absurd hname (htable d p hp.mem (hp.kind_eq.trans hkind) f hf)
    have htruthy : (Value.text name).truthy = true := by
      rcases exists_optional_identifier h "name" (hasField_of_kind hkind (by decide)) with
        hnull | ⟨text, htext, hne⟩
      · rw [hname] at hnull
        cases hnull
      · rw [hname] at htext
        cases htext
        simpa [Value.truthy] using hne
    simp [Value.nameOf?, Value.nameOf, Value.field?, hid, field?_of_get hname, htruthy, Value.datum]

end NodeOf

namespace Check

variable {context : Value}

theorem exists_storeKind (hroot : cfg.root.Conforms cfg.dialect) (hx : cfg.Visits x)
    (hfree : ¬ x.Stuck) (hstores : x.node.Stores name) (hplaced : x.node.IsPlaced cfg.dialect)
    {scope : Scope} (hscope : scope.kind = x.scope) :
    ∃ kind source, storeKind scope (some x.parent) (.text name) x.node = .ok (kind, source) ∧
      source.IsPlaced cfg.dialect := by
  by_cases hloop : x.parent.kind ∈ ["For", "comprehension", "Tuple", "List"]
  · exact ⟨_, _, by rw [storeKind, if_pos (by simpa using hloop)], x.node, rfl, hplaced⟩
  · by_cases hexports : Datum.Key.text name = .text "__all__" ∧ scope.kind = .module
    · obtain ⟨hname, hmodule⟩ := hexports
      cases hname
      cases hvalue : x.parent.field? "value" with
      | none => exact absurd (.exports (hscope ▸ hmodule) hstores hloop hvalue) hfree
      | some v =>
        have hwhole := hx.parent_isWhole hroot
        have hfunction : x.parent.isFunction = false := by
          have htable : ∀ f ∈ Rule.functionDef.fields ++ Rule.lambda.fields, f.name ≠ "value" := by
            decide
          obtain ⟨p, hp⟩ := NodeOf.exists_madeBy hwhole.formed
          obtain ⟨f, hf, hname, -⟩ := (hp.rule_of_field? hvalue).resolve_right (by simp)
          rw [NodeOf.isFunction, Bool.or_eq_false_iff, beq_eq_false_iff_ne, beq_eq_false_iff_ne]
          refine ⟨fun hrule => ?_, fun hrule => ?_⟩
          all_goals
            rw [hp.fields_eq hrule (by decide)] at hf
            exact htable f (by simp [hf]) hname
        have hplaced := NodeOf.isPlaced_value hwhole (hx.mem_children hfunction) hvalue
        refine ⟨.exported, v, ?_, hplaced⟩
        rw [storeKind, if_neg (by simpa using hloop), if_pos ⟨rfl, hmodule⟩, NodeOf.get, hvalue]
        rfl
    · exact ⟨_, _, by rw [storeKind, if_neg (by simpa using hloop), if_neg hexports], x.node, rfl,
        hplaced⟩

/-- A handler is reported if it has no type, and its name is stored if it has one. -/
theorem ruleExceptHandler_eq {below : Visit} {type name : Value} (htype : n.get "type" = .ok type)
    (hname : n.get "name" = .ok name) : ruleExceptHandler cfg below n = (do
      bif type.isNull then report cfg .bareExcept (.node n) [] else pure ()
      bif name.text?.isSome then store cfg n else pure ()
      visitChildren below n) := by
  rw [ruleExceptHandler, htype, hname]
  cases hnull : type.isNull <;> cases htext : name.text?.isSome <;> simp [lift, hnull, htext]

theorem ruleName_of_store (hcontext : n.get "ctx" = .ok context)
    (hstore : (context.isKind "Store" || context.isKind "AugStore") = true) :
    ruleName cfg n = store cfg n := by
  have hload : (context.isKind "Load" || context.isKind "AugLoad") = false := by
    cases context with
    | node c =>
      simp only [Value.isKind, Bool.or_eq_true, beq_iff_eq] at hstore
      rcases hstore with h | h <;> simp [Value.isKind, h]
    | _ => rfl
  rw [ruleName, hcontext]
  calc _ = if (context.isKind "Load" || context.isKind "AugLoad") = true then _ else _ := rfl
    _ = if (context.isKind "Store" || context.isKind "AugStore") = true then _ else _ :=
      if_neg (by simp [hload])
    _ = store cfg n := if_pos hstore

theorem ruleName_of_param (hcontext : n.get "ctx" = .ok context)
    (hparam : context.isKind "Param" = true) :
    ruleName cfg n = throw (.strayContext context.datum.shown) := by
  cases context with
  | node c =>
    have hkind : c.kind = "Param" := by simpa [Value.isKind] using hparam
    rw [ruleName, hcontext]
    simp [lift, Value.isKind, hkind]
  | _ => cases hparam

variable (hcfg : cfg.Plain)

include hcfg

theorem exists_store_at (hx : cfg.Visits x) (hfree : ¬ x.Stuck)
    (hstores : x.node.Stores name) (hplaced : x.node.IsPlaced cfg.dialect) (hs : s.Sound cfg)
    (htop : s.topKind = some x.scope) (hparent : s.parent? x.node = some x.parent) :
    ∃ t, store cfg x.node s = .ok () t ∧ t.Sound cfg := by
  refine exists_store hcfg hplaced hs fun other hother => ?_
  rw [hstores.nameOf? hplaced.formed] at hother
  cases hother
  refine ⟨name, rfl, fun top scope hhead hscope => ?_⟩
  have hkind : scope.kind = x.scope := by
    rw [State.topKind, hhead, Option.bind_some, State.kindOf, hscope] at htop
    exact Option.some.inj htop
  rw [hparent]
  exact exists_storeKind hcfg.root hx hfree hstores hplaced hkind

theorem completes_exceptHandler (hx : cfg.Visits x) (hfree : ¬ x.Stuck)
    (hrule : Rule.of? x.node.kind = some .exceptHandler) (hs : s.Fit cfg)
    (htop : s.topKind = some x.scope) (hparent : s.parent? x.node = some x.parent)
    (hvisit : ∀ m ∈ x.node.children, ∀ s : State, s.Fit cfg → s.topKind = some x.scope →
      Completes cfg (visit cfg (.node m) x.node) s) :
    Completes cfg (ruleExceptHandler cfg (visit cfg) x.node) s := by
  have hwhole := hx.isWhole hcfg.root
  have hplaced := Script.isPlaced_of_rule hwhole hrule (by decide)
  have hkind := NodeOf.kind_of_exceptHandler hwhole.formed hrule
  obtain ⟨type, htype, -⟩ := NodeOf.exists_nodal hwhole.formed "type" .expression
    (NodeOf.hasField_of_rule hrule (by decide))
  obtain ⟨r, hreport, halike, hr⟩ : ∃ r, (bif type.isNull then
      report cfg .bareExcept (.node x.node) [] else pure ()) s = .ok () r ∧ s.Alike r ∧
      r.Sound cfg := by
    cases type.isNull with
    | false => exact ⟨s, rfl, .refl s, hs.toSound⟩
    | true =>
      obtain ⟨_, r, hreport, -, hr⟩ := safe_report hcfg ⟨_, rfl, hplaced⟩ .bare s hs.toSound
      exact ⟨r, hreport, ((told_anyReport _ _ _).ok hreport).toAlike, hr⟩
  have htop' : r.topKind = some x.scope := halike.topKind_eq.trans htop
  have hparent' : r.parent? x.node = some x.parent := by
    rw [State.parent?, State.mark?, halike.marks_eq]
    exact hparent
  obtain ⟨name, hname, u, hstore, halike', hu⟩ : ∃ name, x.node.get "name" = .ok name ∧ ∃ u,
      (bif name.text?.isSome then store cfg x.node else pure ()) r = .ok () u ∧ r.Alike u ∧
      u.Sound cfg := by
    rcases NodeOf.exists_optional_identifier hwhole.formed "name"
      (NodeOf.hasField_of_rule hrule (by decide)) with hname | ⟨text, hname, -⟩
    · exact ⟨.null, hname, r, rfl, .refl r, hr⟩
    · obtain ⟨u, hstore, hu⟩ :=
        exists_store_at hcfg hx hfree (.handler hkind hname) hplaced hr htop' hparent'
      exact ⟨.text text, hname, u, hstore, ((Act.store x.node).run_mild cfg).ok hstore, hu⟩
  have hfit := hs.alike (halike.trans halike') hu
  obtain ⟨t, ht, hlast, hstack, hgrows⟩ :=
    completes_visitChildren hvisit hfit (halike'.topKind_eq.trans htop')
  have halike := halike.trans halike'
  refine ⟨t, ?_, hlast, hstack.trans halike.stack_eq, halike.grows.trans hgrows⟩
  rw [ruleExceptHandler_eq htype hname]
  exact bind_apply_eq_ok.mpr ⟨(), r, hreport, bind_apply_eq_ok.mpr ⟨(), u, hstore, ht⟩⟩

/-- The rule for the node of a site that is not stuck gets through if the visits below do. -/
theorem completes_handleNode (hx : cfg.Visits x) (hfree : ¬ x.Stuck)
    (hs : s.Fit cfg) (htop : s.topKind = some x.scope) (hparent : s.parent? x.node = some x.parent)
    (hvisit : ∀ p ∈ x.node.taken cfg.dialect, ∀ s : State, s.Fit cfg →
      s.topKind = some (p.1.getD x.scope) → p.2.IsNodal → Completes cfg (visit cfg p.2 x.node) s) :
    Completes cfg (handleNode cfg (visit cfg) x.node) s := by
  have hwhole := hx.isWhole hcfg.root
  obtain ⟨rule, hrule⟩ := hx.exists_rule hcfg.root
  have hruleFor : ruleFor? x.node = .ok rule := by rw [ruleFor?, hrule]
  by_cases hhandler : rule = .exceptHandler
  · subst hhandler
    have hhandle : handleNode cfg (visit cfg) x.node = ruleExceptHandler cfg (visit cfg) x.node := by
      rw [handleNode, hruleFor]
      rfl
    rw [hhandle]
    refine completes_exceptHandler hcfg hx hfree hrule hs htop hparent fun m hm s hs htop => ?_
    refine hvisit (none, .node m) ?_ s hs htop (.inr ⟨m, rfl⟩)
    simpa [NodeOf.taken, hrule, Rule.taken, Rule.handed, legs] using hm
  · by_cases hstored : rule = .name ∧ ∃ context, x.node.get "ctx" = .ok context ∧
        (context.isKind "Store" || context.isKind "AugStore") = true
    · obtain ⟨rfl, context, hcontext, hstore⟩ := hstored
      have hkind := NodeOf.kind_of_name hwhole.formed hrule
      obtain ⟨name, hname, -⟩ := NodeOf.exists_identifier hwhole.formed "id"
        (NodeOf.hasField_of_rule hrule (by decide))
      obtain ⟨t, ht, hsound⟩ := exists_store_at hcfg hx hfree (.target hkind hname hcontext hstore)
        (Script.isPlaced_of_rule hwhole hrule (by decide)) hs.toSound htop hparent
      have halike := ((Act.store x.node).run_mild cfg).ok ht
      refine ⟨t, ?_, hs.alike halike hsound, halike.stack_eq, halike.grows⟩
      rw [handleNode, hruleFor]
      rw [← ruleName_of_store hcontext hstore] at ht
      exact ht
    · have hcontext (hname : rule = .name) (c : Value) (hc : x.node.get "ctx" = .ok c) :
          (c.isKind "Store" || c.isKind "AugStore") = false ∧ c.isKind "Param" = false := by
        subst hname
        have hkind := NodeOf.kind_of_name hwhole.formed hrule
        refine ⟨?_, ?_⟩
        · rw [Bool.eq_false_iff]
          exact fun hc' => hstored ⟨rfl, c, hc, hc'⟩
        · rw [Bool.eq_false_iff]
          exact fun hc' => hfree (.parameter hkind hc hc')
      obtain ⟨_, ops, hops, -, hharmless⟩ :=
        Script.works_ofRule hcfg hwhole hrule hcontext hhandler
      have hscript : x.node.script cfg = .ok ((), ops) := by
        simp only [NodeOf.script, hruleFor]
        exact Script.bind_eq_ok.mpr ⟨rule, [], ops, rfl, hops, rfl⟩
      have hlegs := NodeOf.takes_script cfg x.node () ops hscript []
      obtain ⟨top, outer, hstack⟩ := hs.orderly.exists_stack
      obtain ⟨t, ht, hfit, hends, hgrows⟩ := exists_runAll hcfg hx s.stack (by simp [hstack])
        x.scope hlegs hharmless (fun p hp s hs htop hnodal => by
          obtain ⟨q, hq, rfl⟩ := mem_map.mp hp
          have hwithin : q.within none = q := by simp [Leg.within]
          rw [head?_nil, hwithin] at htop hnodal ⊢
          exact hvisit q hq s hs htop hnodal) hs htop ⟨[], rfl, rfl⟩
      refine ⟨t, handleNode_eq_ok.mpr ⟨ops, hscript, ht⟩, hfit, ?_, hgrows⟩
      obtain ⟨ids, hids, hkinds⟩ := hends
      obtain rfl : ids = [] := by simpa using hkinds
      exact hids

/-- Where no site is stuck, visits get through. -/
theorem completes_visit (hfree : ∀ x, cfg.Visits x → ¬ x.Stuck)
    (hx : cfg.Visits x) (hs : s.Fit cfg) (htop : s.topKind = some x.scope) :
    Completes cfg (visit cfg (.node x.node) x.parent) s := by
  induction hsize : x.node.size using Nat.strongRecOn generalizing x s with
  | ind size ih =>
    obtain ⟨r, henter, hquiet, hr⟩ :=
      exists_enterNode hs.toSound (hx.isWhole hcfg.root).formed x.parent
    have hfit : (r.entered x.node x.parent).Fit cfg := by
      have hr' := hs.alike hquiet.toAlike hr
      exact ⟨hr.entered (hx.parent_isWhole hcfg.root).formed _, hr'.functions, hr'.assignments⟩
    have htop' : (r.entered x.node x.parent).topKind = some x.scope :=
      hquiet.toAlike.topKind_eq.trans htop
    obtain ⟨t, ht, hlast, hstack, hgrows⟩ := completes_handleNode hcfg hx (hfree x hx) hfit htop'
      (parent?_entered r x.node x.parent) fun p hp s hs htop hnodal => by
        rcases hnodal with hnull | ⟨m, hm⟩
        · rw [hnull]
          exact ⟨s, rfl, hs, rfl, .refl s⟩
        · have hnext : cfg.Visits ⟨p.1.getD x.scope, x.node, m⟩ := by
            refine hx.next (mem_filterMap.mpr ⟨p, hp, ?_⟩)
            exact Site.ofLeg?_eq_some.mpr ⟨rfl, rfl, hm⟩
          rw [hm]
          have hless : m.size < size := by
            rcases hm ▸ NodeOf.isLess_of_handed (NodeOf.mem_handed_of_taken hp) with hnull | hlt
            · cases hnull
            · rwa [Value.size, hsize] at hlt
          exact ih m.size hless hnext hs htop rfl
    obtain ⟨u, htrace⟩ : ∃ u, traceLine cfg ("end " ++ x.node.kind) t.risen = .ok () u := by
      unfold traceLine
      split <;> exact ⟨_, rfl⟩
    have hquiet' := (told_traceLine _).ok htrace
    have hlast' : t.risen.Fit cfg := ⟨hlast.risen, hlast.functions, hlast.assignments⟩
    have hgrows' : s.Grows t.risen :=
      hquiet.toAlike.grows.trans ((State.grows_entered r _ _).trans (hgrows.trans (t.grows_risen)))
    refine ⟨u, ?_, hlast'.alike hquiet'.toAlike (hlast'.quiet hquiet'), ?_, ?_⟩
    · rw [visit_eq]
      refine bind_apply_eq_ok.mpr ⟨(), _, henter, bind_apply_eq_ok.mpr ⟨(), t.risen, ?_, htrace⟩⟩
      rw [thenRise, ht]
      rfl
    · exact hquiet'.stack_eq.trans (hstack.trans hquiet.stack_eq)
    · exact hgrows'.trans hquiet'.toAlike.grows

end Check

end ScopeLint
