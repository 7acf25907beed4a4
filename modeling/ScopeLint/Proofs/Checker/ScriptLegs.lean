import ScopeLint.Proofs.Checker.Routine

/-! # What a script visits

The script of a node visits the values that its rule takes, in their order, and closes the scopes that
it has opened for them. -/
namespace ScopeLint

/-- The values that steps visit, each with the kind of the innermost scope that the steps have opened
for it, and the kinds of the scopes that are open in the end. No step may close a scope that the steps
have not opened. -/
def Op.legs? : List ScopeKind → List Op → Option (List Leg × List ScopeKind)
  | kinds, [] => some ([], kinds)
  | kinds, .visit v :: rest => (legs? kinds rest).map fun r => ((kinds.head?, v) :: r.1, r.2)
  | kinds, .opens kind :: rest => legs? (kind :: kinds) rest
  | _ :: kinds, .closes :: rest => legs? kinds rest
  | [], .closes :: _ => none
  | kinds, .act _ :: rest | kinds, .late _ :: rest | kinds, .future _ :: rest
  | kinds, .guards _ :: rest | kinds, .unguards :: rest | kinds, .defers _ :: rest =>
    legs? kinds rest

theorem Op.legs?_append (kinds : List ScopeKind) (ops more : List Op) :
    legs? kinds (ops ++ more) = (legs? kinds ops).bind fun r =>
      (legs? r.2 more).map fun q => (r.1 ++ q.1, q.2) := by
  induction ops generalizing kinds with
  | nil => simp [legs?]
  | cons op rest ih =>
    cases op with
    | visit v =>
      simp only [List.cons_append, legs?, ih]
      cases legs? kinds rest with
      | none => rfl
      | some r => simp [Function.comp_def]
    | opens kind => exact ih (kind :: kinds)
    | closes =>
      cases kinds with
      | nil => rfl
      | cons kind kinds => exact ih kinds
    | _ => exact ih kinds

/-- A leg in a scope of the kind, unless a scope is opened for it. -/
def Leg.within (kind : Option ScopeKind) (p : Leg) : Leg := (p.1.or kind, p.2)

namespace Script

variable {α β : Type} {ps qs : List Leg} {x : Script Unit}

/-- The script visits these values, in their order and in scopes of their kinds. -/
def Takes (x : Script α) (ps : List Leg) : Prop :=
  ∀ a ops, x = .ok (a, ops) →
    ∀ kinds, Op.legs? kinds ops = some (ps.map (Leg.within kinds.head?), kinds)

theorem takes_emit {op : Op} (h : ∀ kinds, Op.legs? kinds [op] = some ([], kinds)) :
    (emit op).Takes [] := by
  intro a ops hops kinds
  cases hops
  exact h kinds

theorem Takes.bind {x : Script α} {f : α → Script β} (hx : x.Takes ps)
    (hf : ∀ a ops, x = .ok (a, ops) → (f a).Takes qs) : (x >>= f).Takes (ps ++ qs) := by
  intro b ops h kinds
  obtain ⟨a, first, rest, ha, hb, rfl⟩ := bind_eq_ok.mp h
  rw [Op.legs?_append, hx a first ha, Option.bind_some, hf a first ha b rest hb, List.map_append]
  rfl

theorem takes_visits (vs : List Value) : (visits vs).Takes (legs vs) := by
  intro a ops h kinds
  cases h
  induction vs with
  | nil => rfl
  | cons v rest ih =>
    rw [List.map_cons, Op.legs?, ih]
    rfl

theorem takes_inScope {kind : ScopeKind} {vs : List Value} (h : x.Takes (legs vs)) :
    (inScope kind x).Takes (legsIn kind vs) := by
  intro a ops hops kinds
  obtain ⟨_, _, _, hopens, hrest, rfl⟩ := bind_eq_ok.mp hops
  cases hopens
  obtain ⟨b, inner, _, hinner, hcloses, rfl⟩ := bind_eq_ok.mp hrest
  cases hcloses
  have hlegs : (legs vs).map (Leg.within (some kind)) =
      (legsIn kind vs).map (Leg.within kinds.head?) := by
    simp [legs, legsIn, Leg.within]
  rw [List.singleton_append, Op.legs?, Op.legs?_append, h b inner hinner, Option.bind_some,
    List.head?_cons, hlegs]
  simp [Op.legs?]

theorem takes_underGuard {names : List Datum} (h : x.Takes ps) : (underGuard names x).Takes ps := by
  have hrest := h.bind fun _ _ _ => takes_emit fun _ => @rfl _ (Op.legs? _ [.unguards])
  rw [List.append_nil] at hrest
  exact (takes_emit fun _ => rfl).bind fun _ _ _ => hrest

theorem takes_late {names : Except Fault (List Value)} {x : Script α} (h : x.Takes ps) :
    (do emit (.late (← lift names)); x : Script α).Takes ps := by
  intro a ops hops kinds
  obtain ⟨vs, _, _, hvs, hlate, rfl⟩ := bind_eq_ok.mp hops
  obtain ⟨-, rfl⟩ := lift_eq_ok.mp hvs
  obtain ⟨_, _, rest, hemit, hrest, rfl⟩ := bind_eq_ok.mp hlate
  cases hemit
  exact h a rest hrest kinds

end Script

theorem Check.Routine.takes {α : Type} {cfg : Setup} {n : Node} {ks : List ScopeKind} {ps : List Leg}
    {ds : List Duty} {x : Visit → Check α} {xs : Script α} (h : Routine cfg n ks ps ds x xs) :
    xs.Takes ps := by
  induction h with
  | pure a =>
    intro b ops hops kinds
    cases hops
    rfl
  | throw e => exact fun _ _ hops => nomatch hops
  | bind _ _ ihx ihf => exact ihx.bind ihf
  | act _ _ _ | future _ _ _ | defers _ _ _ _ => exact Script.takes_emit fun _ => rfl
  | late _ _ _ _ ih => exact Script.takes_late ih
  | visit value => exact Script.takes_visits [value]
  | scope _ _ _ ih => exact Script.takes_inScope ih
  | guard _ _ _ ih => exact Script.takes_underGuard ih

theorem NodeOf.takes_script (cfg : Setup) (n : Node) : (n.script cfg).Takes (n.taken cfg.dialect) :=
  (Check.routine_handleNode cfg n).takes

end ScopeLint
