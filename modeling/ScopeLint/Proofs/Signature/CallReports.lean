import ScopeLint.Proofs.Checker.UnusedLocals
import ScopeLint.Proofs.Signature.Placing

/-! # What the check of a call reports

A call gets one report at most. It is refused just if the rules for calls find no place for its
arguments, or leave a positional parameter without one. The report on keyword-only parameters takes
the last ones to be those with defaults, however they are declared. -/
namespace ScopeLint

open Check Signature
open List hiding after

variable {cfg : Setup} {s : Signature} {ps ks : List String} {call : Node} {a : Arguments}
  {name : Datum} {st : State} {p : Option CallProblem}

def Event.refusesCall : Event → Bool
  | .reported k _ => ["E201", "E202", "E203", "E204"].any k.hasCode
  | _ => false

def CallProblem.event (subject name : Datum) (p : CallProblem) : Event :=
  .reported (problemReport name p).1 (subject :: (problemReport name p).2)

theorem CallProblem.Misplaces.refusesCall {p : CallProblem} (h : p.Misplaces)
    (subject name : Datum) : (p.event subject name).refusesCall = true := by
  cases p with
  | tooMany most => rfl
  | unexpected keyword => rfl
  | repeated keyword => rfl
  | tooFew => cases h
  | missingKeywordOnly => cases h

theorem CallProblem.refusesCall_tooFew (least : Int) (subject name : Datum) :
    ((CallProblem.tooFew least).event subject name).refusesCall = true := rfl

theorem CallProblem.refusesCall_missing (names : List Datum) (subject name : Datum) :
    ((CallProblem.missingKeywordOnly names).event subject name).refusesCall = false := rfl

/-- A report is on record even if it fails: what can fail comes after that. -/
theorem after_reportWith (k : Kind) (args : List Datum) :
    (after (reportWith cfg k args []) st).history = .reported k args :: st.history := by
  cases hignored : isIgnored cfg k with
  | error e => simp [after, reportWith, record, hignored, lift]
  | ok ignored =>
    cases ignored with
    | true => simp [after, reportWith, record, hignored, lift]
    | false =>
      cases hd : k.compose (.text cfg.filename) args [("verbose", cfg.verbose)] with
      | error e => simp [after, reportWith, record, hignored, hd, lift]
      | ok d =>
        cases hline : cfg.ignoredLines.lists d.line with
        | error e => simp [after, reportWith, record, hignored, hd, hline, lift]
        | ok hidden => cases hidden <;> simp [after, reportWith, record, hignored, hd, hline, lift]

theorem after_report (k : Kind) (subject : Value) (args : List Datum) :
    (after (report cfg k subject args) st).history =
      .reported k (st.datumOf subject :: args) :: st.history := by
  rw [← @after_reportWith cfg, after, after, report, bind_apply, datum_apply]

theorem after_checkCall (h : s.problem? call = .ok p) :
    (after (checkCall cfg s call name) st).history =
      (p.map (CallProblem.event (st.datumOf (.node call)) name)).toList ++ st.history := by
  cases p with
  | none =>
    rw [checkCall, h]
    rfl
  | some problem =>
    have hcheck : checkCall cfg s call name =
        report cfg (problemReport name problem).1 (.node call) (problemReport name problem).2 := by
      rw [checkCall, h]
      rfl
    rw [hcheck]
    exact after_report _ _ _

/-- A call is refused if an argument has no place, or if a positional parameter is left without one
and no starred argument could be for it. -/
theorem Signature.Answers.refused_iff (h : s.Answers ks a p) (subject name : Datum) :
    (∃ e ∈ (p.map (CallProblem.event subject name)).toList, e.refusesCall = true) ↔
      ¬ s.Placed a.listed ∨ (a.more = false ∧ a.others = false ∧
        ∃ i < s.positional.length - s.defaults, ¬ s.Given a.listed (.positional i)) := by
  cases h with
  | misplaced hmis hnot => simp [hmis.refusesCall, hnot]
  | tooFew hplaced hmore hothers hi hnot =>
    have hrefused := CallProblem.refusesCall_tooFew s.fewest subject name
    simpa [hrefused, hplaced, hmore, hothers] using ⟨_, hi, hnot⟩
  | missing hplaced hgiven hothers =>
    have hfits := fun names => CallProblem.refusesCall_missing names subject name
    simpa [hfits, hplaced, hothers] using hgiven
  | fits hplaced hgiven => simpa [hplaced] using hgiven

/-- A call gets at most one report. Without starred arguments it is refused just if the rules for
calls do not bind it; with them, only if nothing that they stand for could help. -/
theorem call_refused_iff_not_binds (hs : s.Named ps ks) (hplain : s.decorated = false)
    (hcall : call.States a) (hkeys : a.keywords.Nodup) (cfg : Setup) (name : Datum) (st : State) :
    ∃ es : List Event, (after (checkCall cfg s call name) st).history = es ++ st.history ∧
      es.length ≤ 1 ∧
      (a.more = false → a.others = false →
        ((∃ e ∈ es, e.refusesCall = true) ↔ ¬ s.Binds a.listed)) ∧
      (a.more = true ∨ a.others = true → (∃ e ∈ es, e.refusesCall = true) →
        ∀ (m : Nat) (extra : List String), (a.more = false → m = 0) →
          (a.others = false → extra = []) →
          ¬ s.Binds (Argument.listOf (a.count + m) (a.keywords ++ extra))) := by
  obtain ⟨p, hp, hanswers⟩ := problem?_answers hs hplain hcall
  refine ⟨_, after_checkCall hp, by cases p <;> simp, ?_⟩
  rw [hanswers.refused_iff]
  refine ⟨fun hmore hothers => ⟨?_, fun hnot => ?_⟩, ?_⟩
  · rintro (hnot | ⟨-, -, i, hi, hnot⟩) hbinds
    · exact hnot hbinds.toPlaced
    · exact hnot (hbinds.given i hi)
  · by_contra hfits
    rw [not_or, not_not] at hfits
    refine hnot ⟨hfits.1, nodup_listOf hkeys, fun i hi => ?_⟩
    by_contra hi'
    exact hfits.2 ⟨hmore, hothers, i, hi, hi'⟩
  · rintro hstarred (hnot | ⟨hmore, hothers, -⟩) m extra - - hbinds
    · exact hnot (hbinds.toPlaced.of_sublist (listOf_sublist _ _ _ _))
    · simp [hmore, hothers] at hstarred

namespace Sample

/-- Two positional parameters, the second with a default, and one that only a keyword reaches. -/
def signature : Signature where
  decorated := false
  positional := [.text "a", .text "b"]
  defaults := 1
  keywordOnly := [.text "c"]
  keywordOnlyDefaults := 0
  takesMore := false
  takesKeywords := false

theorem signature_named : signature.Named ["a", "b"] ["c"] := ⟨rfl, rfl, by decide⟩

/-- A call with so many arguments by place, the keywords, and `*xs` if `more` says so. -/
def callOf (count : Nat) (keywords : List String) (more : Bool) : Node :=
  ⟨0, "Call", none, [("args", .list (replicate count (Sample.name 1 "x" "Load"))),
    ("keywords", .list (keywords.map fun k => .node ⟨0, "keyword", none, [("arg", .text k)]⟩)),
    ("starargs", if more then Sample.name 1 "xs" "Load" else .null), ("kwargs", .null)]⟩

theorem states_callOf (count : Nat) (keywords : List String) (more : Bool) :
    (callOf count keywords more).States ⟨count, keywords, more, false⟩ where
  positional := ⟨_, rfl, List.length_replicate⟩
  keywords := ⟨_, rfl, forall₂_map_left_iff.mpr (forall₂_same.mpr fun _ _ => rfl)⟩
  more := by cases more <;> rfl
  others := rfl

def said (s : Signature) (n : Node) : List Event :=
  (after (checkCall (setup []) s n (.text "f")) (State.initial 0)).history

end Sample

/-- No `*xs` binds `f(1, a=2, *xs)`, and `f(1, 2, c=3)` is bound as it stands. -/
theorem call_refused_twice_given :
    (∀ m, ¬ Sample.signature.Binds (Argument.listOf (1 + m) ["a"])) ∧
      Sample.signature.Binds (Argument.listOf 2 ["c"]) := by
  constructor
  · intro m
    obtain ⟨es, hes, -, -, hstarred⟩ := call_refused_iff_not_binds Sample.signature_named rfl
      (Sample.states_callOf 1 ["a"] true) (nodup_singleton "a") (Sample.setup []) (.text "f")
      (State.initial 0)
    have hrefused : (Sample.said Sample.signature (Sample.callOf 1 ["a"] true)).any
      Event.refusesCall = true := by decide +kernel
    rw [Sample.said, hes, State.initial, append_nil, any_eq_true] at hrefused
    exact hstarred (.inl rfl) hrefused m [] (fun h => by cases h) fun _ => rfl
  · obtain ⟨es, hes, -, hplain, -⟩ := call_refused_iff_not_binds Sample.signature_named rfl
      (Sample.states_callOf 2 ["c"] false) (nodup_singleton "c") (Sample.setup []) (.text "f")
      (State.initial 0)
    have hrefused : (Sample.said Sample.signature (Sample.callOf 2 ["c"] false)).any
      Event.refusesCall = false := by decide +kernel
    rw [Sample.said, hes, State.initial, append_nil] at hrefused
    by_contra hnot
    obtain ⟨e, he, h⟩ := (hplain rfl rfl).mpr hnot
    rw [any_eq_true.mpr ⟨e, he, h⟩] at hrefused
    cases hrefused

section KeywordOnly

variable {n : Node} {params : List (String × Bool)} {es : List Event} {keywords : List String}
  {i : Nat}

/-- The keyword-only parameters of a function in their order, each with whether it has a default. -/
def NodeOf.HasKeywordOnly (n : Node) (params : List (String × Bool)) : Prop :=
  ∃ (args : Value) (names defaults : List Value), n.get "args" = .ok args ∧
    args.get "kwonlyargs" = .ok (.list names) ∧ args.get "kw_defaults" = .ok (.list defaults) ∧
    List.Forall₂ (fun v p => v.get "arg" = .ok (.text p.1)) names params ∧
    List.Forall₂ (fun v p => v.isNull = !p.2) defaults params

theorem parameterNames_eq {args : Value} {field : String} {names : List Value}
    (hfield : args.get field = .ok (.list names))
    (hnames : List.Forall₂ (fun v p => v.get "arg" = .ok (.text p.1)) names params) :
    parameterNames args field = .ok (params.map fun p => .text p.1) := by
  unfold parameterNames
  rw [hfield]
  refine mapM_eq_ok.mpr (forall₂_map_right_iff.mpr (hnames.imp fun v p hname => ?_))
  rw [hname]
  rfl

theorem length_filter_defaults {defaults : List Value}
    (h : List.Forall₂ (fun v p => v.isNull = !p.2) defaults params) :
    (defaults.filter (!·.isNull)).length = params.countP (·.2) := by
  induction h with
  | nil => rfl
  | @cons v p _ _ hp _ ih =>
    rw [filter_cons, countP_cons, ← ih, hp]
    cases p.2 <;> rfl

theorem keywordOnly_of_function (hs : Signature.ofFunction n = .ok s)
    (hparams : n.HasKeywordOnly params) : s.keywordOnly = params.map (fun p => .text p.1) ∧
      s.keywordOnlyDefaults = params.countP (·.2) := by
  obtain ⟨args, names, defaults, hargs, hnames, hdefaults, hn, hd⟩ := hparams
  unfold Signature.ofFunction at hs
  obtain ⟨_, -, hs⟩ := ScopeLint.bind_eq_ok.mp hs
  rw [hargs, ok_bind] at hs
  obtain ⟨_, -, hs⟩ := ScopeLint.bind_eq_ok.mp hs
  obtain ⟨_, -, hs⟩ := ScopeLint.bind_eq_ok.mp hs
  obtain ⟨_, -, hs⟩ := ScopeLint.bind_eq_ok.mp hs
  rw [parameterNames_eq hnames hn, ok_bind, hdefaults, ok_bind, Value.items, ok_bind] at hs
  obtain ⟨_, -, hs⟩ := ScopeLint.bind_eq_ok.mp hs
  obtain ⟨_, -, hs⟩ := ScopeLint.bind_eq_ok.mp hs
  cases hs
  exact ⟨rfl, length_filter_defaults hd⟩

/-- The keyword-only parameters without a default that no keyword is for, in their order. -/
def lacking (params : List (String × Bool)) (keywords : List String) : List String :=
  (params.filter fun p => !p.2 && p.1 ∉ keywords).map (·.1)

section

variable (hnodup : (params.map (·.1)).Nodup)

include hnodup

variable {p : String × Bool}

theorem mem_lacking (hi : params[i]? = some p) :
    p.1 ∈ lacking params keywords ↔ p.2 = false ∧ p.1 ∉ keywords := by
  simp only [lacking, mem_map, mem_filter, Bool.and_eq_true, Bool.not_eq_true',
    decide_eq_true_eq]
  constructor
  · rintro ⟨q, ⟨hq, hdefault, hkeyword⟩, hname⟩
    rw [inj_on_of_nodup_map hnodup hq (mem_of_getElem? hi) hname] at hdefault hkeyword
    exact ⟨hdefault, hkeyword⟩
  · exact fun h => ⟨p, ⟨mem_of_getElem? hi, h⟩, rfl⟩

theorem mem_omitted_map {d : Nat} (hi : params[i]? = some p) :
    p.1 ∈ omitted (params.map (·.1)) d keywords ↔ i < params.length - d ∧ p.1 ∉ keywords := by
  have hname : (params.map (·.1))[i]? = some p.1 := by rw [getElem?_map, hi, Option.map_some]
  rw [mem_omitted, length_map]
  refine and_congr_left fun _ => ⟨?_, fun hlt => ⟨i, hlt, hname⟩⟩
  rintro ⟨j, hj, hjname⟩
  rwa [getElem?_unique hnodup hname hjname]

/-- The omitted names are the lacking ones just if, of what no keyword is for, the last parameters
are those with defaults. -/
theorem omitted_eq_lacking_iff (d : Nat) :
    omitted (params.map (·.1)) d keywords = lacking params keywords ↔
      ∀ i p, params[i]? = some p → p.1 ∉ keywords → (p.2 = true ↔ params.length - d ≤ i) := by
  constructor
  · intro heq i p hi hp
    have hmem : p.1 ∈ omitted (params.map (·.1)) d keywords ↔ _ := mem_omitted_map hnodup hi
    rw [heq, mem_lacking hnodup hi] at hmem
    rw [← Bool.not_eq_false, ← Nat.not_lt]
    simpa [hp] using not_congr hmem
  · intro h
    have hfirst : (params.take (params.length - d)).filter (fun p => !p.2 && p.1 ∉ keywords) =
        (params.take (params.length - d)).filter (fun p => p.1 ∉ keywords) := by
      refine filter_congr fun p hp => ?_
      obtain ⟨i, hi⟩ := mem_iff_getElem?.mp hp
      rw [getElem?_take] at hi
      split at hi
      · by_cases hk : p.1 ∈ keywords
        · simp [hk]
        · have hdefault : p.2 = false := by
            rw [← Bool.not_eq_true, h i p hi hk]
            omega
          simp [hdefault]
      · cases hi
    have hlast : (params.drop (params.length - d)).filter (fun p => !p.2 && p.1 ∉ keywords) =
        [] := by
      refine filter_eq_nil_iff.mpr fun p hp => ?_
      obtain ⟨i, hi⟩ := mem_iff_getElem?.mp hp
      rw [getElem?_drop] at hi
      by_cases hk : p.1 ∈ keywords
      · simp [hk]
      · simp [(h _ p hi hk).mpr (Nat.le_add_right _ _)]
    calc omitted (params.map (·.1)) d keywords
        = ((params.take (params.length - d)).filter (fun p => p.1 ∉ keywords)).map (·.1) := by
          rw [omitted, length_map, ← map_take, filter_map]
          rfl
      _ = ((params.take (params.length - d) ++ params.drop (params.length - d)).filter
            (fun p => !p.2 && p.1 ∉ keywords)).map (·.1) := by
          rw [filter_append, hfirst, hlast, append_nil]
      _ = lacking params keywords := by rw [take_append_drop, lacking]

end

/-- Where the arguments are placed, the keyword-only parameters are reported that stand before the
last ones, as many as have defaults, and that no keyword is for. -/
theorem keywordOnly_reports_by_count (hs : Signature.ofFunction n = .ok s)
    (hplain : s.decorated = false) (hps : s.positional = ps.map .text)
    (hparams : n.HasKeywordOnly params) (hdistinct : (ps ++ params.map (·.1)).Nodup)
    (hcall : call.States a) (hothers : a.others = false) (cfg : Setup) (name : Datum) (st : State)
    (hes : (after (checkCall cfg s call name) st).history = es ++ st.history)
    (hfits : ∀ e ∈ es, e.refusesCall = false) :
    let names := omitted (params.map (·.1)) (params.countP (·.2)) a.keywords
    es = (if names = [] then [] else [.reported .needKwOnlyArgument
      [st.datumOf (.node call), name, .text (Text.join ", " (names.map Text.quoted))]]) ∧
    (names = lacking params a.keywords ↔ ∀ i p, params[i]? = some p → p.1 ∉ a.keywords →
      (p.2 = true ↔ params.length - params.countP (·.2) ≤ i)) := by
  intro names
  refine ⟨?_, omitted_eq_lacking_iff hdistinct.of_append_right _⟩
  obtain ⟨hnames, hcount⟩ := keywordOnly_of_function hs hparams
  have hnamed : s.Named ps (params.map (·.1)) :=
    ⟨hps, by rw [hnames, map_map]; rfl, hdistinct⟩
  obtain ⟨p, hp, hanswers⟩ := problem?_answers hnamed hplain hcall
  rw [after_checkCall hp, append_left_inj] at hes
  subst hes
  cases hanswers with
  | misplaced hmis =>
    have := hfits _ (mem_singleton.mpr rfl)
    rw [hmis.refusesCall] at this
    cases this
  | tooFew =>
    have := hfits _ (mem_singleton.mpr rfl)
    rw [CallProblem.refusesCall_tooFew] at this
    cases this
  | missing _ _ _ hne =>
    rw [hcount] at hne ⊢
    rw [if_neg hne]
    have hshown : (names.map Datum.text).map Datum.shown = names.map Text.quoted := by
      simp [Datum.shown]
    rw [← hshown]
    rfl
  | fits _ _ hnone =>
    have hnone := hnone hothers
    rw [hcount] at hnone
    rw [if_pos hnone]
    rfl

namespace Sample

/-- A function of `a`, which has a default, and `b`, which has none; both by keyword only. -/
def keywordFunction : Node :=
  ⟨0, "FunctionDef", some (.of 1 0), [("name", .text "f"),
    ("args", .node ⟨0, "arguments", none, [("args", .list []), ("vararg", .null),
      ("kwonlyargs", .list (["a", "b"].map fun k => .node ⟨0, "arg", none, [("arg", .text k)]⟩)),
      ("kw_defaults", .list [Sample.name 1 "x" "Load", .null]), ("kwarg", .null),
      ("defaults", .list [])]⟩),
    ("body", .list []), ("decorator_list", .list []), ("returns", .null)]⟩

def keywordSignature : Signature := ⟨false, [], 0, [.text "a", .text "b"], 1, false, false⟩

theorem keywordFunction_signature : Signature.ofFunction keywordFunction = .ok keywordSignature :=
  rfl

theorem keywordFunction_parameters : keywordFunction.HasKeywordOnly [("a", true), ("b", false)] :=
  ⟨_, _, _, rfl, rfl, rfl, .cons rfl (.cons rfl .nil), .cons rfl (.cons rfl .nil)⟩

end Sample

/-- `f(b=2)` is reported for lack of `a`. -/
theorem keywordOnly_reports_by_count_first : Sample.said Sample.keywordSignature
    (Sample.callOf 0 ["b"] false) = [.reported .needKwOnlyArgument
      [(State.initial 0).datumOf (.node (Sample.callOf 0 ["b"] false)), .text "f",
        .text (Text.join ", " (["a"].map Text.quoted))]] := by
  have hfits : ∀ e ∈ Sample.said Sample.keywordSignature (Sample.callOf 0 ["b"] false),
      e.refusesCall = false := by
    have : (Sample.said Sample.keywordSignature (Sample.callOf 0 ["b"] false)).all
      (fun e => e.refusesCall == false) = true := by decide +kernel
    simpa using this
  have hnone : Sample.keywordSignature.positional = ([] : List String).map .text := rfl
  exact (keywordOnly_reports_by_count Sample.keywordFunction_signature rfl hnone
    Sample.keywordFunction_parameters (by decide) (Sample.states_callOf 0 ["b"] false) rfl
    (Sample.setup []) (.text "f") (State.initial 0) (append_nil _).symm hfits).1

/-- Nothing lacks in `f(b=2)`, which gets the report; `b` lacks in `f(a=2)`, which gets none. -/
theorem keywordOnly_default_reported :
    Sample.keywordFunction.HasKeywordOnly [("a", true), ("b", false)] ∧
    Signature.ofFunction Sample.keywordFunction = .ok Sample.keywordSignature ∧
    lacking [("a", true), ("b", false)] ["b"] = [] ∧
    ((Sample.said Sample.keywordSignature (Sample.callOf 0 ["b"] false)).filterMap
      (Event.argsOf? "E205")).length = 1 ∧
    lacking [("a", true), ("b", false)] ["a"] = ["b"] ∧
    ((Sample.said Sample.keywordSignature (Sample.callOf 0 ["a"] false)).filterMap
      (Event.argsOf? "E205")).length = 0 :=
  ⟨Sample.keywordFunction_parameters, Sample.keywordFunction_signature, by decide,
    by decide +kernel, by decide, by decide +kernel⟩

end KeywordOnly

end ScopeLint
