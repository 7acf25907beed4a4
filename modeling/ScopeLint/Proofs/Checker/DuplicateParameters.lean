import Mathlib.Data.Finset.Card
import ScopeLint.Proofs.Checker.Resolution

/-! # Parameters of the same name

A parameter is reported if its name stands before it in the parameter list. Where parameters may be
tuples, the starred ones are not compared with the others. -/
namespace ScopeLint

open List

/-- The members of a list, in order, that also stand before their place or in `before`. -/
def repeatedAfter (before : List String) : List String → List String
  | [] => []
  | x :: rest => (if x ∈ before then [x] else []) ++ repeatedAfter (before ++ [x]) rest

section Repeated

variable (before names : List String)

theorem repeatedAfter_append (more : List String) : repeatedAfter before (names ++ more) =
    repeatedAfter before names ++ repeatedAfter (before ++ names) more := by
  induction names generalizing before with
  | nil => simp [repeatedAfter]
  | cons x rest ih => simp [repeatedAfter, ih]

/-- All but one of the places of each name are counted. -/
theorem length_repeatedAfter : (repeatedAfter before names).length +
    (before ++ names).toFinset.card = names.length + before.toFinset.card := by
  induction names generalizing before with
  | nil => simp [repeatedAfter]
  | cons x rest ih =>
    have hrest := ih (before ++ [x])
    have hset : (before ++ [x]).toFinset = insert x before.toFinset := by ext y; simp
    rw [append_assoc, singleton_append, hset] at hrest
    rw [repeatedAfter, length_append, length_cons]
    by_cases hx : x ∈ before
    · rw [Finset.insert_eq_of_mem (mem_toFinset.mpr hx)] at hrest
      rw [if_pos hx, length_singleton]
      omega
    · rw [Finset.card_insert_of_notMem (mt mem_toFinset.mp hx)] at hrest
      rw [if_neg hx, length_nil]
      omega

theorem repeatedAfter_eq_nil :
    repeatedAfter before names = [] ↔ names.Nodup ∧ ∀ x ∈ names, x ∉ before := by
  induction names generalizing before with
  | nil => simp [repeatedAfter]
  | cons x rest ih =>
    rw [repeatedAfter, append_eq_nil_iff, ih, nodup_cons]
    grind

end Repeated

/-- Parameters that may be tuples, with the names in them. -/
inductive Spelled : List Value → List String → Prop
  | nil : Spelled [] []
  | name {v : Value} {rest : List Value} {s : String} {names : List String} :
      v.isKind "Tuple" = false → v.get "id" = .ok (.text s) → Spelled rest names →
      Spelled (v :: rest) (s :: names)
  | tuple {v : Value} {items rest : List Value} {inner names : List String} :
      v.isKind "Tuple" = true → v.get "elts" = .ok (.list items) → Spelled items inner →
      Spelled rest names → Spelled (v :: rest) (inner ++ names)

/-- A starred parameter, which is a node of its own or just a name, if it is there. -/
def Value.Stars (args : Value) (field : String) (names : List String) : Prop :=
  ∃ v, args.get field = .ok v ∧
    names.map .text = if v.truthy then [((v.field? "arg").getD v).datum] else []

/-- The names that a parameter list is written with: of the parameters before the starred ones, and
of those. Where parameters are no tuples, keyword-only ones come after the positional ones. -/
def Value.Declares (d : Dialect) (args : Value) (plain starred : List String) : Prop :=
  (if d.isTwo then ∃ items, args.get "args" = .ok (.list items) ∧ Spelled items plain
  else ∃ positional only, args.get "args" = .ok (.list positional) ∧
    args.get "kwonlyargs" = .ok (.list only) ∧
    List.Forall₂ (fun v s => v.get "arg" = .ok (.text s)) (positional ++ only) plain) ∧
  ∃ first second, args.Stars "vararg" first ∧ args.Stars "kwarg" second ∧ starred = first ++ second

namespace Check

variable {cfg : Setup} {n : Node} {s t : State} {names starred plain : List String} {args : Value}
  {ps : Parameters}

/-- Reports about the parameters of a function, one for each of the names. -/
def reportEach (cfg : Setup) (n : Node) (names : List String) : Check Unit :=
  names.forM fun name => report cfg .duplicateArgument (.node n) [.text name]

theorem reportEach_append (names more : List String) : reportEach cfg n (names ++ more) =
    reportEach cfg n names >>= fun _ => reportEach cfg n more :=
  forM_append

theorem among_map_text (names : List String) (x : String) :
    Datum.among (names.map .text) (.text x) = decide (x ∈ names) := by
  rw [Bool.eq_iff_iff, decide_eq_true_iff]
  simp [Datum.among, Datum.same]

/-- What is done about one name, where `before` are the names before it. -/
theorem reportEach_one (before : List String) (x : String) :
    reportEach cfg n (if x ∈ before then [x] else []) =
      if Datum.among (before.map .text) (.text x) then
        report cfg .duplicateArgument (.node n) [.text x] else pure () := by
  rw [among_map_text]
  by_cases hx : x ∈ before <;> simp [hx, reportEach]

theorem reportDuplicates_eq (before names : List String) :
    reportDuplicates cfg n (before.map .text) (names.map .text) =
      reportEach cfg n (repeatedAfter before names) := by
  induction names generalizing before with
  | nil => rfl
  | cons x rest ih =>
    have hrest := ih (before ++ [x])
    rw [map_append] at hrest
    rw [map_cons, reportDuplicates, repeatedAfter, reportEach_append, reportEach_one]
    split <;> simp [← hrest]

theorem tupleParameters_eq_ok {items : List Value} (hs : Spelled items names) {fuel : Nat}
    (before : List String) {all : List Datum}
    (h : tupleParameters cfg n fuel (before.map .text) items s = .ok all t) :
    all = (before ++ names).map .text ∧
      reportEach cfg n (repeatedAfter before names) s = .ok () t := by
  induction hs generalizing fuel before s t all with
  | nil =>
    cases fuel with
    | zero => cases h
    | succ fuel =>
      cases h
      exact ⟨by simp, rfl⟩
  | @name v rest x names hkind hget _ ih =>
    cases fuel with
    | zero => cases h
    | succ fuel =>
      have hopen : tupleParameters cfg n (fuel + 1) (before.map .text) (v :: rest) =
          reportEach cfg n (if x ∈ before then [x] else []) >>= fun _ =>
            tupleParameters cfg n fuel ((before ++ [x]).map .text) rest := by
        rw [reportEach_one, tupleParameters]
        by_cases hx : Datum.among (before.map .text) (.text x) = true <;>
          simp [hkind, hget, lift, Value.datum, hx]
      rw [hopen] at h
      obtain ⟨_, u, hfirst, hrest⟩ := bind_apply_eq_ok.mp h
      obtain ⟨rfl, hreports⟩ := ih _ hrest
      refine ⟨by simp, ?_⟩
      rw [repeatedAfter, reportEach_append]
      exact bind_apply_eq_ok.mpr ⟨(), u, hfirst, hreports⟩
  | @tuple v items rest inner names hkind hget _ _ ihi ihr =>
    cases fuel with
    | zero => cases h
    | succ fuel =>
      rw [tupleParameters, if_pos hkind, hget] at h
      obtain ⟨_, hitems, h⟩ := lift_bind_eq_ok.mp h
      cases hitems
      obtain ⟨all, u, hinner, hrest⟩ := bind_apply_eq_ok.mp h
      obtain ⟨rfl, hfirst⟩ := ihi _ hinner
      obtain ⟨rfl, hsecond⟩ := ihr _ hrest
      refine ⟨by simp, ?_⟩
      rw [repeatedAfter_append, reportEach_append]
      exact bind_apply_eq_ok.mpr ⟨(), u, hfirst, hsecond⟩

theorem starredParameter_names {all : Parameters} {field : String}
    (hps : ps.names = names.map .text) (hs : args.Stars field starred)
    (h : starredParameter cfg n args ps field = .ok all) :
    all.names = (names ++ starred).map .text := by
  obtain ⟨v, hget, hstarred⟩ := hs
  rw [starredParameter, hget, ok_bind] at h
  rw [map_append, hstarred, ← hps]
  split at h
  · cases h
    simp_all
  · split at h
    · obtain ⟨_, -, h⟩ := ScopeLint.bind_eq_ok.mp h
      cases h
      simp_all
    · cases h
      simp_all

theorem names_of_mapM {vs : List Value}
    (hnames : List.Forall₂ (fun v s => v.get "arg" = .ok (.text s)) vs names)
    {both : List (Datum × Value)} (h : (vs.mapM fun arg => do
      let annotated ← arg.get "annotation"
      return ((← arg.get "arg").datum, annotated)) = (.ok both : Except Fault _)) :
    both.map (·.1) = names.map .text := by
  replace h := mapM_eq_ok.mp h
  induction hnames generalizing both with
  | nil =>
    cases h
    rfl
  | cons hfirst _ ih =>
    cases h with
    | cons hone hothers =>
      obtain ⟨_, -, hone⟩ := ScopeLint.bind_eq_ok.mp hone
      rw [hfirst] at hone
      cases hone
      exact congrArg _ (ih hothers)

/-- Where parameters may be tuples, names are compared when they are read. -/
theorem plainParameters_eq_ok (hargs : args.Declares cfg.dialect plain starred)
    (h : plainParameters cfg n args s = .ok ps t) : ps.names = plain.map .text ∧
      reportEach cfg n (if cfg.dialect.isTwo then repeatedAfter [] plain else []) s = .ok () t := by
  obtain ⟨hplain, -⟩ := hargs
  unfold plainParameters at h
  split at h
  · rename_i htwo
    rw [if_pos htwo] at hplain
    obtain ⟨items, hget, hitems⟩ := hplain
    rw [hget] at h
    obtain ⟨_, hread, h⟩ := lift_bind_eq_ok.mp h
    cases hread
    obtain ⟨names, u, hnames, h⟩ := bind_apply_eq_ok.mp h
    obtain ⟨defaults, -, h⟩ := lift_bind_eq_ok.mp h
    cases h
    obtain ⟨rfl, hreports⟩ := tupleParameters_eq_ok hitems [] hnames
    exact ⟨rfl, by rwa [if_pos htwo]⟩
  · rename_i hthree
    rw [if_neg hthree] at hplain
    obtain ⟨positional, only, hpositional, honly, hnames⟩ := hplain
    rw [hpositional, honly] at h
    obtain ⟨_, hread, h⟩ := lift_bind_eq_ok.mp h
    cases hread
    obtain ⟨both, hboth, h⟩ := lift_bind_eq_ok.mp h
    obtain ⟨defaults, -, h⟩ := lift_bind_eq_ok.mp h
    cases h
    exact ⟨names_of_mapM hnames hboth, by rw [if_neg hthree]; rfl⟩

theorem parametersOf_eq_ok (hargs : args.Declares cfg.dialect plain starred)
    (h : parametersOf cfg n args s = .ok ps t) : ps.names = (plain ++ starred).map .text ∧
      reportEach cfg n (if cfg.dialect.isTwo then repeatedAfter [] plain else []) s = .ok () t := by
  obtain ⟨read, u, hread, h⟩ := bind_apply_eq_ok.mp h
  obtain ⟨hnames, hreports⟩ := plainParameters_eq_ok hargs hread
  obtain ⟨-, first, second, hfirst, hsecond, rfl⟩ := hargs
  obtain ⟨more, hmore, h⟩ := lift_bind_eq_ok.mp h
  obtain ⟨all, hall, h⟩ := lift_bind_eq_ok.mp h
  have hall := starredParameter_names (starredParameter_names hnames hfirst hmore) hsecond hall
  rw [append_assoc] at hall
  split at h
  · obtain ⟨returned, -, h⟩ := lift_bind_eq_ok.mp h
    cases h
    exact ⟨hall, hreports⟩
  · cases h
    exact ⟨hall, hreports⟩

theorem checkParameters_eq (hps : ps.names = names.map .text) : checkParameters cfg n ps =
      reportEach cfg n (if cfg.dialect.isTwo then [] else repeatedAfter [] names) := by
  have hkeys : (names.map Datum.text).forM (fun name => do let _ ← lift name.key) =
      (pure () : Check Unit) := by
    clear hps
    induction names with
    | nil => rfl
    | cons name rest ih => exact ih
  rw [checkParameters, hps, hkeys]
  cases cfg.dialect.isTwo with
  | true => rfl
  | false => exact reportDuplicates_eq [] names

/-- Which parameters of the same name are reported, before anything else is done about the function,
and when these are all of them. -/
theorem duplicate_parameters_reported {visit : Visit} {args : Value} {plain starred : List String}
    (hget : n.get "args" = .ok args) (hargs : args.Declares cfg.dialect plain starred)
    (h : ruleLambda cfg visit n s = .ok () t) :
    let names := plain ++ starred
    let compared := if cfg.dialect.isTwo then plain else names
    let told := repeatedAfter [] compared
    (∃ outside u, told.forM (fun x => report cfg .duplicateArgument (.node n) [.text x]) s =
        .ok () u ∧
      (do visitAll visit n outside
          defer .functions (.body n (names.map .text))) u = .ok () t) ∧
    told.length + compared.toFinset.card = compared.length ∧
    (told = repeatedAfter [] names ↔
      cfg.dialect.isTwo = true → starred.Nodup ∧ ∀ x ∈ starred, x ∉ plain) := by
  intro names compared told
  refine ⟨?_, by simpa using length_repeatedAfter [] compared, ?_⟩
  · obtain ⟨_, hget', h⟩ := lift_bind_eq_ok.mp h
    cases hget.symm.trans hget'
    obtain ⟨ps, u, hps, h⟩ := bind_apply_eq_ok.mp h
    obtain ⟨hnames, hfirst⟩ := parametersOf_eq_ok hargs hps
    rw [checkParameters_eq hnames] at h
    obtain ⟨_, v, hsecond, h⟩ := bind_apply_eq_ok.mp h
    obtain ⟨outside, -, h⟩ := lift_bind_eq_ok.mp h
    refine ⟨outside.filter Value.truthy, v, ?_, hnames ▸ h⟩
    have hboth := (reportEach_append _ _).symm ▸ bind_apply_eq_ok.mpr ⟨(), u, hfirst, hsecond⟩
    cases htwo : cfg.dialect.isTwo <;> simpa [told, compared, htwo, reportEach] using hboth
  · rw [← repeatedAfter_eq_nil]
    cases htwo : cfg.dialect.isTwo <;>
      simp [told, compared, names, htwo, repeatedAfter_append]

end Check

namespace Sample

def starredParameters (parameters : List Value) (more : String) : Value :=
  .node ⟨0, "arguments", none, [("args", .list parameters), ("vararg", .text more),
    ("kwarg", .null), ("defaults", .list [])]⟩

/-- A function with a starred parameter, in the last dialect where parameters may be tuples. -/
def starredLambda (parameters : List Value) (more : String) : Node :=
  ⟨0, "Lambda", some (.of 1 0), [("args", starredParameters parameters more),
    ("body", number 1 0)]⟩

def nestedParameters : List Value :=
  [tuple 1 [name 1 "a" "Param", tuple 1 [name 1 "b" "Param", name 1 "a" "Param"]],
    name 1 "b" "Param"]

end Sample

namespace Check

open Sample

/-- Two names are repeated in and after a tuple, and the starred one is new. -/
theorem duplicate_parameters_reported_nested :
    (starredParameters nestedParameters "c").Declares .twoSeven ["a", "b", "a", "b"] ["c"] ∧
      ∃ t outside u, ruleLambda (setupTwoSeven []) (fun _ _ => pure ())
          (starredLambda nestedParameters "c") (State.initial 1) = .ok () t ∧
        ["a", "b"].forM (fun x => report (setupTwoSeven []) .duplicateArgument
          (.node (starredLambda nestedParameters "c")) [.text x]) (State.initial 1) = .ok () u ∧
        (do visitAll (fun _ _ => pure ()) (starredLambda nestedParameters "c") outside
            defer .functions (.body (starredLambda nestedParameters "c")
              (["a", "b", "a", "b", "c"].map .text))) u = .ok () t := by
  have hspelled : Spelled nestedParameters ["a", "b", "a", "b"] :=
    .tuple rfl rfl (.name rfl rfl (.tuple rfl rfl (.name rfl rfl (.name rfl rfl .nil)) .nil))
      (.name rfl rfl .nil)
  have hargs : (starredParameters nestedParameters "c").Declares .twoSeven
      ["a", "b", "a", "b"] ["c"] :=
    ⟨⟨_, rfl, hspelled⟩, ["c"], [], ⟨_, rfl, rfl⟩, ⟨_, rfl, rfl⟩, rfl⟩
  have hends : finishes (ruleLambda (setupTwoSeven []) (fun _ _ => pure ())
      (starredLambda nestedParameters "c")) (State.initial 1) = true := by decide +kernel
  obtain ⟨t, hrun⟩ := exists_of_finishes hends
  obtain ⟨⟨outside, u, hfirst, hrest⟩, -⟩ := duplicate_parameters_reported rfl hargs hrun
  exact ⟨hargs, t, outside, u, hrun, hfirst, hrest⟩

/-- A starred parameter with the name of another one is not reported where parameters may be
tuples. -/
theorem starred_parameter_not_compared :
    (starredParameters [name 1 "a" "Param"] "a").Declares .twoSeven ["a"] ["a"] ∧
      repeatedAfter [] ["a", "a"] = ["a"] ∧
      endsWith (setupTwoSeven [.node (starredLambda [name 1 "a" "Param"] "a")])
        (·.messages.isEmpty) = true :=
  ⟨⟨⟨_, rfl, .name rfl rfl .nil⟩, ["a"], [], ⟨_, rfl, rfl⟩, ⟨_, rfl, rfl⟩, rfl⟩, by decide +kernel,
    by decide +kernel⟩

end Check

end ScopeLint
