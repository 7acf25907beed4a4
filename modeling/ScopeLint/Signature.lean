import ScopeLint.Tree.Basic

/-! Signatures of functions, and what is wrong with a call of one. -/
namespace ScopeLint

structure Signature where
  decorated : Bool
  positional : List Datum
  defaults : Nat
  keywordOnly : List Datum
  keywordOnlyDefaults : Nat
  takesMore : Bool
  takesKeywords : Bool

inductive CallProblem where
  | tooMany (most : Nat)
  | unexpected (keyword : Datum)
  | repeated (keyword : Datum)
  | tooFew (least : Int)
  | missingKeywordOnly (names : List Datum)

namespace Signature

def fewest (s : Signature) : Int := s.positional.length - s.defaults

def most (s : Signature) : Nat := s.positional.length

def parameterNames (args : Value) (name : String) : Except Fault (List Datum) := do
  let items ← (← args.get name).items
  items.mapM fun a => return (← a.get "arg").datum

/-- The signature of a function. `parameterNames` and the count of keyword-only defaults stand for
helpers outside the checker (`argument_names`, `kw_only_argument_names`, `kw_only_default_count`).
They are assumed to be those of the latest dialect, whatever the dialect of the check: every list of
parameters has the fields for keyword-only ones, a name is under `arg`, and null is no default. -/
def ofFunction (n : Node) : Except Fault Signature := do
  let decorators ← n.itemsOf "decorator_list"
  let args ← n.get "args"
  let positional ← parameterNames args "args"
  let defaults ← (← args.get "defaults").items
  let keywordOnly ← parameterNames args "kwonlyargs"
  let keywordDefaults ← (← args.get "kw_defaults").items
  let more ← args.get "vararg"
  let keywords ← args.get "kwarg"
  return {
    decorated := decorators.any Value.truthy
    positional
    defaults := defaults.length
    keywordOnly
    keywordOnlyDefaults := (keywordDefaults.filter (!·.isNull)).length
    takesMore := !more.isNull
    takesKeywords := !keywords.isNull }

def slotOf (names : List Datum) (keyword : Datum) : Option Nat :=
  names.findIdx? (·.same keyword)

/-- Slots with a value: positional parameters and keyword-only ones, by place. A place below zero
belongs to a default that no parameter has. -/
structure Filled where
  positional : List Int
  keywordOnly : List Int

def Filled.add (s : Signature) (filled : Filled) (keyword : Datum) :
    Except CallProblem Filled :=
  match slotOf s.positional keyword with
  | some i =>
    if filled.positional.contains (i : Int) then .error (.repeated keyword)
    else .ok { filled with positional := filled.positional ++ [(i : Int)] }
  | none =>
    match slotOf s.keywordOnly keyword with
    | some i =>
      if filled.keywordOnly.contains (i : Int) then .error (.repeated keyword)
      else .ok { filled with keywordOnly := filled.keywordOnly ++ [(i : Int)] }
    | none => if s.takesKeywords then .ok filled else .error (.unexpected keyword)

def lastSlots (total count : Nat) : List Int :=
  (List.range count).map fun i : Nat => (total : Int) - count + i

/-- `xs` and the items of `ys` that are not among them. -/
def union (xs ys : List Int) : List Int := xs ++ ys.filter (!xs.contains ·)

def unfilled (names : List Datum) (filled : List Int) : List Datum :=
  (names.zipIdx.filter fun e => !filled.contains (e.2 : Int)).map (·.1)

def bindKeywords (s : Signature) (filled : Filled) :
    List Value → Except Fault (Except CallProblem Filled)
  | [] => .ok (.ok filled)
  | k :: rest => do
    let keyword := (← k.get "arg").datum
    match filled.add s keyword with
    | .ok filled => bindKeywords s filled rest
    | .error problem => return .error problem

def given (call : Node) (name : String) : Except Fault Bool := do
  return (← call.get name).truthy

/-- The first problem with `call`, if there is one. Decorated functions are not checked. -/
def problem? (s : Signature) (call : Node) : Except Fault (Option CallProblem) := do
  if s.decorated then return none
  let args ← call.itemsOf "args"
  if s.positional.length < args.length ∧ !s.takesMore then return some (.tooMany s.most)
  let start : Filled :=
    ⟨(List.range (min args.length s.positional.length)).map fun i : Nat => (i : Int), []⟩
  match ← bindKeywords s start (← call.itemsOf "keywords") with
  | .error problem => return some problem
  | .ok filled =>
    let positional := union filled.positional (lastSlots s.positional.length s.defaults)
    let keywordOnly :=
      union filled.keywordOnly (lastSlots s.keywordOnly.length s.keywordOnlyDefaults)
    if positional.length < s.positional.length then
      if !(← given call "starargs") then
        if !(← given call "kwargs") then return some (.tooFew s.fewest)
    if keywordOnly.length < s.keywordOnly.length then
      if !(← given call "kwargs") then
        return some (.missingKeywordOnly (unfilled s.keywordOnly keywordOnly))
    return none

end Signature

end ScopeLint
