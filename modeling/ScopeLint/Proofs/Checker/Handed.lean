import Mathlib.Data.List.Perm.Subperm
import ScopeLint.Checker.Walk
import ScopeLint.Proofs.Effects

/-! # What the rule for a node hands on to visits -/
namespace ScopeLint

open List

namespace Value

/-- The field `name`, if it is there. -/
def valueIn (v : Value) (name : String) : List Value := (v.get name).toOption.toList

/-- What a loop over the field `name` runs through, if that is possible. -/
def itemsIn (v : Value) (name : String) : List Value :=
  (v.valueIn name).flatMap fun w => (w.items.toOption).getD []

variable {v w : Value} {name : String} {items : List Value}

theorem valueIn_of_get (h : v.get name = .ok w) : v.valueIn name = [w] := by
  simp [valueIn, h, Except.toOption]

theorem itemsIn_of_get (h : v.get name = .ok w) (hi : w.items = .ok items) :
    v.itemsIn name = items := by
  simp [itemsIn, valueIn_of_get h, hi, Except.toOption]

theorem items_of_add {sum : Value} (h : v.add w = .ok sum) (hi : sum.items = .ok items) :
    ∃ first second, v.items = .ok first ∧ w.items = .ok second ∧ items = first ++ second := by
  unfold add at h
  split at h
  · cases h
    exact ⟨_, _, rfl, rfl, by simpa [Value.items] using hi.symm⟩
  · cases h
    exact ⟨_, _, rfl, rfl, by simpa [Value.items] using hi.symm⟩
  · split at h
    · cases h
      cases hi
    · cases h

end Value

namespace NodeOf

/-- Annotations of the starred parameters, which stand with the parameters or beside them. -/
def starredAnnotations (d : Dialect) (args : Value) : List Value :=
  ["vararg", "kwarg"].flatMap fun name =>
    if d = .threeFour then (args.valueIn name).flatMap (·.valueIn "annotation")
    else args.valueIn (name ++ "annotation")

def aroundParameters (d : Dialect) (n : Node) (args : Value) : List Value :=
  (if d.isTwo then []
    else (args.itemsIn "args" ++ args.itemsIn "kwonlyargs").flatMap (·.valueIn "annotation")) ++
  (if n.has "returns" then starredAnnotations d args else []) ++
  args.itemsIn "defaults" ++
  (if d.isTwo then [] else args.itemsIn "kw_defaults")

def aroundFunction (d : Dialect) (n : Node) : List Value :=
  (((Value.node n).valueIn "args").flatMap (aroundParameters d n) ++
    (Value.node n).valueIn "returns").filter Value.truthy

end NodeOf

/-- The values that a rule hands on to visits below the node. -/
def Rule.handed (d : Dialect) (n : Node) : Rule → List Value
  | .descend | .forLoop | .call | .exceptHandler => n.children.map .node
  | .ignore | .globalNames | .name | .importNames | .importFrom => []
  | .listComp | .generatorExp =>
    (Value.node n).itemsIn "generators" ++ (Value.node n).valueIn "elt"
  | .dictComp =>
    (Value.node n).itemsIn "generators" ++ (Value.node n).valueIn "key" ++
      (Value.node n).valueIn "value"
  | .functionDef => (Value.node n).itemsIn "decorator_list" ++ n.aroundFunction d
  | .lambda => n.aroundFunction d
  | .classDef =>
    (Value.node n).itemsIn "decorator_list" ++ (Value.node n).itemsIn "bases" ++
      (if d.isTwo then [] else (Value.node n).itemsIn "keywords") ++ (Value.node n).itemsIn "body"
  | .assign => (Value.node n).valueIn "value" ++ (Value.node n).itemsIn "targets"
  | .augAssign => (Value.node n).valueIn "value" ++ (Value.node n).valueIn "target"
  | .tryBlock =>
    (Value.node n).itemsIn "body" ++
      (n.children.filter fun c => !((do (← n.get "body").holds c).toOption).getD false).map .node

namespace NodeOf

def handed (d : Dialect) (n : Node) : List Value :=
  match Rule.of? n.kind with
  | some rule => rule.handed d n
  | none => []

/-- The values in the body of a function, which are visited below it later. -/
def deferred (n : Node) : List Value :=
  match n.get "body" with
  | .ok (.list items) => items
  | .ok v => [v]
  | .error _ => []

variable (d : Dialect) (n : Node) (args : Value)

def plainAnnotations : List Value :=
  if d.isTwo then []
  else (args.itemsIn "args" ++ args.itemsIn "kwonlyargs").flatMap (·.valueIn "annotation")

def annotationStarred (name : String) : List Value :=
  if d = .threeFour then (args.valueIn name).flatMap (·.valueIn "annotation")
  else args.valueIn (name ++ "annotation")

def parameterDefaults : List Value :=
  args.itemsIn "defaults" ++ if d.isTwo then [] else args.itemsIn "kw_defaults"

theorem starredAnnotations_eq : starredAnnotations d args =
    annotationStarred d args "vararg" ++ annotationStarred d args "kwarg" := by
  rw [starredAnnotations, flatMap_cons, flatMap_singleton]
  rfl

theorem aroundParameters_eq : n.aroundParameters d args =
    plainAnnotations d args ++ (if n.has "returns" then starredAnnotations d args else []) ++
      parameterDefaults d args := by
  rw [aroundParameters, append_assoc]
  rfl

def annotationGiven (name : String) : List Value :=
  if (args.valueIn name).any Value.truthy then annotationStarred d args name else []

/-- Annotations and defaults of a function, as far as they are visited, in their order. Lambda
expressions have no annotations of starred parameters. -/
def outside : List Value :=
  (((Value.node n).valueIn "args").flatMap fun args =>
    plainAnnotations d args ++
      (if n.has "returns" then
        annotationGiven d args "vararg" ++ annotationGiven d args "kwarg"
      else []) ++
      (Value.node n).valueIn "returns" ++ parameterDefaults d args).filter Value.truthy

theorem annotationGiven_sublist (name : String) :
    (annotationGiven d args name).Sublist (annotationStarred d args name) := by
  unfold annotationGiven
  split
  · exact List.Sublist.refl _
  · exact nil_sublist _

/-- What is visited around a function is an annotation or a default of it, each at most once. -/
theorem outside_subperm : (n.outside d).Subperm (n.aroundFunction d) := by
  refine List.Subperm.filter _ ?_
  cases hargs : (Value.node n).get "args" with
  | error e =>
    have hnone : (Value.node n).valueIn "args" = [] := by
      simp [Value.valueIn, hargs, Except.toOption]
    rw [hnone]
    exact nil_subperm
  | ok args =>
    have hstars : (if n.has "returns" then
        annotationGiven d args "vararg" ++ annotationGiven d args "kwarg" else []).Sublist
        (if n.has "returns" then starredAnnotations d args else []) := by
      split
      · rw [starredAnnotations_eq]
        exact (annotationGiven_sublist d args _).append (annotationGiven_sublist d args _)
      · exact List.Sublist.refl _
    rw [Value.valueIn_of_get hargs, flatMap_singleton, flatMap_singleton,
      aroundParameters_eq]
    -- the annotation of the result comes before the defaults
    have hparts := ((List.Sublist.refl (plainAnnotations d args)).append hstars).append_right
      ((Value.node n).valueIn "returns" ++ parameterDefaults d args)
    rw [← append_assoc] at hparts
    refine hparts.subperm.trans (List.Perm.subperm ?_)
    rw [append_assoc (_ ++ _) (parameterDefaults _ _)]
    exact perm_append_comm.append_left _

end NodeOf

/-- A value that is visited, and the kind of the scope that is opened for it, if one is. -/
abbrev Leg := Option ScopeKind × Value

/-- Values that are visited in the scope that is open. -/
def legs (vs : List Value) : List Leg := vs.map (none, ·)

/-- Values that are visited in a scope of their own. -/
def legsIn (kind : ScopeKind) (vs : List Value) : List Leg := vs.map (some kind, ·)

@[simp]
theorem legs_nil : legs [] = [] := rfl

@[simp]
theorem legs_append (vs ws : List Value) : legs (vs ++ ws) = legs vs ++ legs ws :=
  map_append

@[simp]
theorem map_legs (vs : List Value) : (legs vs).map (·.2) = vs := by simp [legs, Function.comp_def]

@[simp]
theorem map_legsIn (kind : ScopeKind) (vs : List Value) : (legsIn kind vs).map (·.2) = vs := by
  simp [legsIn, Function.comp_def]

/-- Work that the rule of a definition puts off. -/
inductive Duty where
  | body (n : Node)
  | doctests (n : Node)

def Task.duty? : Task → Option Duty
  | .body n _ => some (.body n)
  | .doctests n => some (.doctests n)
  | .assignments | .returns _ => none

namespace Rule

/-- What a rule visits, the bodies of functions apart. -/
def taken (d : Dialect) (n : Node) : Rule → List Leg
  | .generatorExp => legsIn .generator (Rule.handed d n .generatorExp)
  | .dictComp => legsIn .generator (Rule.handed d n .dictComp)
  | .functionDef => legs ((Value.node n).itemsIn "decorator_list" ++ n.outside d)
  | .lambda => legs (n.outside d)
  | .classDef =>
    legs ((Value.node n).itemsIn "decorator_list" ++ (Value.node n).itemsIn "bases" ++
      if d.isTwo then [] else (Value.node n).itemsIn "keywords") ++
    legsIn .classBody ((Value.node n).itemsIn "body")
  | rule => legs (rule.handed d n)

def scopes : Rule → List ScopeKind
  | .generatorExp | .dictComp => [.generator]
  | .classDef => [.classBody]
  | _ => []

def duties (cfg : Setup) (n : Node) : Rule → List Duty
  | .functionDef => .body n :: if cfg.doctests then [.doctests n] else []
  | .lambda => [.body n]
  | .classDef => if cfg.doctests then [.doctests n] else []
  | _ => []

end Rule

namespace NodeOf

def taken (d : Dialect) (n : Node) : List Leg :=
  match Rule.of? n.kind with
  | some rule => rule.taken d n
  | none => []

def scopes (n : Node) : List ScopeKind :=
  match Rule.of? n.kind with
  | some rule => rule.scopes
  | none => []

def duties (cfg : Setup) (n : Node) : List Duty :=
  match Rule.of? n.kind with
  | some rule => rule.duties cfg n
  | none => []

/-- What is visited is handed on, each value at most once. -/
theorem taken_subperm (d : Dialect) (n : Node) : ((n.taken d).map (·.2)).Subperm (n.handed d) := by
  rw [taken, handed]
  cases Rule.of? n.kind with
  | none => exact List.Subperm.refl _
  | some rule =>
    cases rule with
    | functionDef =>
      simpa only [Rule.taken, Rule.handed, map_legs] using
        (subperm_append_left _).mpr (n.outside_subperm d)
    | lambda => simpa only [Rule.taken, Rule.handed, map_legs] using n.outside_subperm d
    | classDef => simp [Rule.taken, Rule.handed, List.Subperm.refl]
    | _ => simp [Rule.taken, List.Subperm.refl]

theorem mem_handed_of_taken {d : Dialect} {n : Node} {leg : Leg} (h : leg ∈ n.taken d) :
    leg.2 ∈ n.handed d :=
  (n.taken_subperm d).subset (mem_map_of_mem h)

end NodeOf

end ScopeLint
