import ScopeLint.Proofs.Checker.ImportFates
import ScopeLint.Proofs.Checker.UsedFlag
import ScopeLint.Proofs.Signature.CallReports

/-! # Which definition a call is held against

A call of a name is held against what the scope that the name is found in holds for it. That is what
the last statement for the name has bound there, unless the statement gave way to a definition that
nothing had used. -/
namespace ScopeLint

open List

variable {s : State} {id : ScopeId} {key : Datum.Key} {b : Binding}

/-- The signature that calls have to respect, if it is a function that is bound. -/
def BindingKind.signature? : BindingKind → Option Signature
  | .function signature => some signature
  | _ => none

/-- What the last statement for the name in the scope was to bind, and where, whether it was bound or
gave way; nothing if the name has been deleted since. -/
def lastStatement? (id : ScopeId) (key : Datum.Key) : List Event → Option (Node × Binding)
  | [] => none
  | e :: earlier =>
    match e with
    | .bound i k n b | .refused i k n b =>
      if i = id ∧ k = key then some (n, b) else lastStatement? id key earlier
    | .deleted i k => if i = id ∧ k = key then none else lastStatement? id key earlier
    | _ => lastStatement? id key earlier

/-- The statement `m` was to bind `b'` to the name, but gave way to what `n` had bound: a definition
on the same branch that nothing had used. This was reported. -/
def GaveWay (id : ScopeId) (key : Datum.Key) (later : List Event) (n : Node) (b : Binding)
    (earlier : List Event) (m : Node) (b' : Binding) : Prop :=
  ∃ since before, later = since ++ .refused id key m b' :: before ∧ b.isUnusedDefinition = true ∧
    (∀ use, .loaded id key use ∉ before) ∧
    .compared m n false ∈ notesOf (before ++ .bound id key n b :: earlier) ∧
    ToldOf (notesOf (before ++ .bound id key n b :: earlier)) m n b'.name

section Record

variable {h later before earlier : List Event} {n m : Node} {b' : Binding} {signature : Signature}

/-- A function is bound by its definition, with the signature that is stated there. -/
theorem Binding.MadeAt.ofFunction_eq {old : Option Binding} (hmade : b.MadeAt n old)
    (hsignature : b.kind.signature? = some signature) :
    Rule.of? n.kind = some .functionDef ∧ Signature.ofFunction n = .ok signature := by
  cases hmade with
  | stated hstated =>
    cases hstated with
    | function name signature' hrule hfunction =>
      obtain rfl := Option.some.inj hsignature
      exact ⟨hrule, hfunction⟩
    | classDefinition | importation => cases hsignature
  | parameter => cases hsignature
  | stored name kind source hstored =>
    cases kind with
    | function => cases hstored
    | _ => cases hsignature

/-- Every binding has been put into one scope, by an event of its own. So two scopes hold the same
bindings exactly if they are one or both are empty, which is how a look-up compares them. -/
theorem State.Recorded.same_bindings_iff (hs : s.Recorded) (id other : ScopeId) :
    (∀ key earlier, (∃ later n b, InForce s.history id key later n b earlier) ↔
      ∃ later n b, InForce s.history other key later n b earlier) ↔
    id = other ∨ s.isEmptyScope id = true ∧ s.isEmptyScope other = true := by
  have hheld {i : ScopeId} {key : Datum.Key} {later earlier : List Event} {n : Node} {b : Binding}
      (hin : InForce s.history i key later n b earlier) : s.isEmptyScope i = false := by
    have hsome : (s.binding? i key).isSome = true := by
      rw [hs.binding?_eq, hin.replayed_eq]
      rfl
    exact isEmptyScope_of_binding hsome
  constructor
  · intro hsame
    have hone {i j : ScopeId} (hsub : ∀ key earlier,
        (∃ later n b, InForce s.history i key later n b earlier) →
          ∃ later n b, InForce s.history j key later n b earlier) :
        j = i ∨ s.isEmptyScope i = true := by
      by_cases hempty : s.isEmptyScope i = true
      · exact .inr hempty
      obtain ⟨key, b, hb⟩ := exists_binding_of_isEmptyScope (Bool.eq_false_iff.mpr hempty)
      rw [hs.binding?_eq] at hb
      obtain ⟨later, n, b₀, earlier, hin⟩ := exists_inForce hb
      obtain ⟨later', n', b', hin'⟩ := hsub key earlier ⟨later, n, b₀, hin⟩
      -- both are the event with the same events before it
      obtain ⟨-, heq⟩ := append_inj' (hin'.split.symm.trans hin.split) rfl
      cases heq
      exact .inl rfl
    rcases hone fun key earlier => (hsame key earlier).mp with rfl | hid
    · exact .inl rfl
    rcases hone fun key earlier => (hsame key earlier).mpr with rfl | hother
    · exact .inl rfl
    · exact .inr ⟨hid, hother⟩
  · rintro (rfl | ⟨hid, hother⟩) key earlier
    · exact Iff.rfl
    · constructor
      · rintro ⟨later, n, b, hin⟩
        cases hid.symm.trans (hheld hin)
      · rintro ⟨later, n, b, hin⟩
        cases hother.symm.trans (hheld hin)

/-- What a statement gives way to is what is in force, and nothing has used it. -/
theorem InForce.gaveWay (hc : Chronicle s h) (hin : InForce h id key later n b earlier)
    {since : List Event} (hlater : later = since ++ .refused id key m b' :: before) :
    GaveWay id key later n b earlier m b' := by
  obtain ⟨rfl, hstays⟩ := hin
  subst hlater
  rw [append_assoc, cons_append] at hc
  have hkept : InForce (before ++ .bound id key n b :: earlier) id key before n b earlier :=
    ⟨rfl, fun e he => hstays e (by simp [he])⟩
  obtain ⟨o, ho, hunused, hnotes⟩ := hc.sound
  obtain rfl := Option.some.inj (hkept.replayed_eq.symm.trans ho)
  obtain ⟨hdefinition, hnever⟩ : b.kind.isDefinition = true ∧
      (before.findSome? (Event.useOf? id key)).or b.used = none := by
    simpa [Binding.isUnusedDefinition, Binding.isUsed] using hunused
  obtain ⟨hloads, hused⟩ := Option.or_eq_none_iff.mp hnever
  have hsource : b.source = .node n := by
    have hbound : Chronicle s (.bound id key n b :: earlier) := hc.suffix.2.suffix
    refine hbound.1.1.source_eq ?_
    cases hkind : b.kind with
    | plain | assignment | exported => simp [hkind, BindingKind.isDefinition] at hdefinition
    | _ => rfl
  obtain ⟨hcompared, htold⟩ := hnotes n hsource
  refine ⟨since, before, rfl, ?_, findSome?_useOf?_eq_none.mp hloads, hcompared, htold⟩
  simp [Binding.isUnusedDefinition, Binding.isUsed, hdefinition, hused]

/-- The last statement has bound what is in force, or it gave way. -/
theorem InForce.last_or_refused (hin : InForce h id key later n b earlier) :
    (lastStatement? id key h = some (n, b) ∧ ∀ m b', .refused id key m b' ∉ later) ∨
      ∃ since m b' before, later = since ++ .refused id key m b' :: before ∧
        lastStatement? id key h = some (m, b') := by
  obtain ⟨rfl, hstays⟩ := hin
  induction later with
  | nil => simp [lastStatement?]
  | cons e later ih =>
    obtain ⟨he, hstays⟩ := forall_mem_cons.mp hstays
    -- an event that is no statement for the name
    have hpass (hsame : lastStatement? id key (e :: (later ++ .bound id key n b :: earlier)) =
          lastStatement? id key (later ++ .bound id key n b :: earlier))
        (hno : ∀ m b', e ≠ .refused id key m b') :
        (lastStatement? id key (e :: later ++ .bound id key n b :: earlier) = some (n, b) ∧
            ∀ m b', .refused id key m b' ∉ e :: later) ∨
          ∃ since m b' before, e :: later = since ++ .refused id key m b' :: before ∧
            lastStatement? id key (e :: later ++ .bound id key n b :: earlier) = some (m, b') := by
      rw [cons_append, hsame]
      rcases ih hstays with ⟨hlast, hnone⟩ | ⟨since, m, b', before, hlater, hlast⟩
      · refine .inl ⟨hlast, fun m b' hmem => ?_⟩
        rcases mem_cons.mp hmem with heq | hmem
        · exact hno m b' heq.symm
        · exact hnone m b' hmem
      · exact .inr ⟨e :: since, m, b', before, by rw [hlater, cons_append], hlast⟩
    cases e with
    | refused i k m b' =>
      by_cases hhere : i = id ∧ k = key
      · obtain ⟨rfl, rfl⟩ := hhere
        exact .inr ⟨[], m, b', later, rfl, by simp [lastStatement?]⟩
      · refine hpass (by simp [lastStatement?, hhere]) fun m' b'' heq => hhere ?_
        cases heq
        exact ⟨rfl, rfl⟩
    | bound i k | deleted i k =>
      have hother : ¬ (i = id ∧ k = key) := by simpa [Event.ousts] using he
      exact hpass (by simp [lastStatement?, hother]) (by simp)
    | loaded | compared | body | reported => exact hpass rfl (by simp)

end Record

namespace Check

variable {cfg : Setup} {call : Node} {name : Datum}

/-- Holds a call of `name` against a signature, if there is one. -/
def checkAgainst (cfg : Setup) (call : Node) (name : Datum) : Option Signature → Check Unit
  | some signature => checkCall cfg signature call name
  | none => return

/-- The node calls what the name stands for. -/
def CallsName (call : Node) (name : Datum) (key : Datum.Key) : Prop :=
  ∃ function v, call.get "func" = .ok function ∧ function.isKind "Name" = true ∧
    function.get "id" = .ok v ∧ v.datum = name ∧ name.key = .ok key

theorem checkCallee_of_finds (h : s.Orderly) (hcall : CallsName call name key)
    (hfinds : s.Finds key id) (hb : s.binding? id key = some b) :
    checkCallee cfg call s = checkAgainst cfg call name b.kind.signature? s := by
  obtain ⟨function, v, hfunction, hkind, hid, rfl, hkey⟩ := hcall
  obtain ⟨visible, hvisible⟩ := h.visibleScopes_ok
  have hfind : visible.find? (s.binds key) = some id := (h.find?_eq_some_iff hvisible).mpr hfinds
  obtain ⟨-, nearer, further, rfl, hnone⟩ := find?_eq_some_iff_append.mp hfind
  have hsome : (nearer ++ id :: further).findSome? (s.binding? · key) = some b := by
    have hnearer : nearer.findSome? (s.binding? · key) = none := by
      refine findSome?_eq_none_iff.mpr fun other hother => ?_
      simpa [State.binds] using hnone other hother
    rw [findSome?_append, hnearer, Option.none_or, findSome?_cons, hb]
  obtain ⟨_, kind, _, _⟩ := b
  simp only [checkCallee, bind_apply, get_apply, lift, hfunction, hkind, hvisible, hid, hkey, hsome,
    pure_apply, if_true]
  cases kind <;> rfl

/-- At every moment of a run, a call of a name that is found in a scope is held against what is in
force there: against the signature that the definition states if it is a function, and against nothing
otherwise. This is what the last statement for the name was to bind, unless that statement gave way to
an unused definition on the same branch, with a report. -/
theorem call_held_against_binding_in_force (cfg : Setup) (stop : Moment → State → Bool) (next : Nat)
    (call : Node) (name : Datum) (key : Datum.Key) (id : ScopeId) (hcall : CallsName call name key)
    (hfinds : (reached cfg stop next).Finds key id) :
    let s := reached cfg stop next
    ∃ later n b earlier, InForce s.history id key later n b earlier ∧
      (∀ signature, b.kind.signature? = some signature →
        Rule.of? n.kind = some .functionDef ∧ Signature.ofFunction n = .ok signature) ∧
      checkCallee cfg call s = checkAgainst cfg call name b.kind.signature? s ∧
      ((lastStatement? id key s.history = some (n, b) ∧ ∀ m b', .refused id key m b' ∉ later) ∨
        ∃ m b', lastStatement? id key s.history = some (m, b') ∧
          GaveWay id key later n b earlier m b') := by
  intro s
  have hrecorded : s.Recorded := recorded_reached cfg stop next
  have horderly : s.Orderly := orderly_reached cfg stop next
  have hbinds : s.binds key id = true := by
    obtain ⟨-, -, -, -, hbinds, -⟩ := hfinds
    exact hbinds
  obtain ⟨b', hb'⟩ := Option.isSome_iff_exists.mp hbinds
  have hreplayed := hb'
  rw [hrecorded.binding?_eq] at hreplayed
  obtain ⟨later, n, b, earlier, hin⟩ := exists_inForce hreplayed
  have hkind : b'.kind = b.kind := by
    rw [Option.some.inj (hreplayed.symm.trans hin.replayed_eq)]
  refine ⟨later, n, b, earlier, hin, fun signature hsignature => ?_, ?_, ?_⟩
  · have hchronicle := hrecorded.chronicle
    rw [hin.split] at hchronicle
    exact hchronicle.sound.1.ofFunction_eq hsignature
  · rw [checkCallee_of_finds horderly hcall hfinds hb', hkind]
  · rcases hin.last_or_refused with hlast | ⟨since, m, new, before, hlater, hlast⟩
    · exact .inl hlast
    · exact .inr ⟨m, new, hlast, hin.gaveWay hrecorded.chronicle hlater⟩

end Check

namespace Sample

def definition (line : Int) (name : String) (parameters : List String) : Value :=
  .node ⟨0, "FunctionDef", some (.of line 0), [("name", .text name),
    ("args", .node ⟨0, "arguments", none, [
      ("args", .list (parameters.map fun p =>
        .node ⟨0, "arg", none, [("arg", .text p), ("annotation", .null)]⟩)),
      ("vararg", .null), ("kwonlyargs", .list []), ("kw_defaults", .list []), ("kwarg", .null),
      ("defaults", .list [])]⟩),
    ("body", .list []), ("decorator_list", .list []), ("returns", .null)]⟩

def callWithOne (line : Int) (id : String) : Node :=
  ⟨0, "Call", some (.of line 0), [("func", name line id "Load"), ("args", .list [number line 1]),
    ("keywords", .list []), ("starargs", .null), ("kwargs", .null)]⟩

/-- A function is loaded before it is defined again, and then called at the node 8. -/
def redefinedUsed : Setup :=
  setup [definition 1 "f" [], name 2 "f" "Load", definition 3 "f" ["a"], .node (callWithOne 4 "f")]

/-- A function that nothing has used is defined again, and then called at the node 6. -/
def redefinedUnused : Setup :=
  setup [definition 1 "f" [], definition 2 "f" ["a"], .node (callWithOne 3 "f")]

/-- Whether the last statement for the name in the module is a function that the call fits. -/
def fitsLast (s : State) (name : String) (call : Node) : Bool :=
  ((lastStatement? 0 (.text name) s.history).bind (·.2.kind.signature?)).any fun signature =>
    match signature.problem? call with
    | .ok none => true
    | _ => false

end Sample

namespace Check

open Sample

theorem callsName_callWithOne (line : Int) (id : String) :
    CallsName (callWithOne line id) (.text id) (.text id) :=
  ⟨_, .text id, rfl, rfl, rfl, rfl, rfl⟩

/-- The second definition is in force, and the call is held against it. -/
theorem call_held_against_binding_in_force_redefined :
    ∃ n b, lastStatement? 0 (.text "f")
        (reached redefinedUsed (atNode 8) redefinedUsed.root.size).history = some (n, b) ∧
      checkCallee redefinedUsed (callWithOne 4 "f")
          (reached redefinedUsed (atNode 8) redefinedUsed.root.size) =
        checkAgainst redefinedUsed (callWithOne 4 "f") (.text "f") b.kind.signature?
          (reached redefinedUsed (atNode 8) redefinedUsed.root.size) ∧
      fitsLast (reached redefinedUsed (atNode 8) redefinedUsed.root.size) "f"
        (callWithOne 4 "f") = true := by
  have hstack : (reached redefinedUsed (atNode 8) redefinedUsed.root.size).stack = [0] := by
    decide +kernel
  have hfinds : (reached redefinedUsed (atNode 8) redefinedUsed.root.size).Finds (.text "f") 0 :=
    State.finds_top hstack (by decide +kernel)
  obtain ⟨later, n, b, earlier, hin, -, hcheck, hlast⟩ := call_held_against_binding_in_force
    redefinedUsed (atNode 8) redefinedUsed.root.size (callWithOne 4 "f") (.text "f") (.text "f") 0
    (callsName_callWithOne 4 "f") hfinds
  rcases hlast with ⟨hlast, -⟩ | ⟨m, b', -, since, before, hlater, -⟩
  · exact ⟨n, b, hlast, hcheck, by decide +kernel⟩
  · have hnone : (reached redefinedUsed (atNode 8) redefinedUsed.root.size).history.all
        (fun e => match e with | .refused _ _ _ _ => false | _ => true) = true := by decide +kernel
    rw [hin.split, hlater] at hnone
    simp at hnone

/-- The call fits the last definition, and is reported because it does not fit the first. -/
theorem call_held_against_kept_definition :
    fitsLast (reached redefinedUnused (atNode 6) redefinedUnused.root.size) "f"
        (callWithOne 3 "f") = true ∧
      (after (checkCallee redefinedUnused (callWithOne 3 "f"))
        (reached redefinedUnused (atNode 6) redefinedUnused.root.size)).history.head?.any
        Event.refusesCall = true ∧
      (final redefinedUnused).messages.toList.map (·.text) =
        ["(none):2: redefinition of 'f' from line 1",
          "(none):3: f() takes at most 0 argument(s)"] := by
  decide +kernel

end Check

end ScopeLint
