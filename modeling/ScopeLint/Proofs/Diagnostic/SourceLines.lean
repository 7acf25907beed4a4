import ScopeLint.Diagnostic.Basic
import ScopeLint.Proofs.Effects

/-! # The source line under a message

A text that could not be read is shown by its last line, with a caret under a column of that line. What
stands before the line, and the break that ends it, only move the offset that the column is found
from. -/
namespace ScopeLint

theorem Text.linesFrom_eq_nil_iff {acc cs : List Char} :
    linesFrom acc cs = [] ↔ acc = [] ∧ cs = [] := by
  fun_induction linesFrom acc cs with
  | case1 acc hacc => simpa using hacc
  | case2 acc hacc => simpa using hacc
  | case3 acc rest ih => simp
  | case4 acc d rest hpair hd ih => simp
  | case5 acc d rest hpair hd ih => simp [ih]

namespace Kind

variable {before last ending shown : List Char}

/-- What stands before the text of a syntax error. -/
def heading (verbose filename row column : Datum) : String :=
  if verbose.truthy then
    filename.plain ++ ":" ++ row.plain ++ ":" ++ column.plain ++ ":E402::"
  else filename.plain ++ ":" ++ row.plain ++ ": "

theorem fill_sourceSyntaxError (text : String) (values : Named) :
    Template.fill sourceSyntaxError.template [.text text] values = .ok text ∧
      Template.fill sourceSyntaxError.keyword [.text text] values = .ok "" := by
  have hchars : Template.fillWithin [.text text] values 2 .unset ['\x7b', '0', '!', 's', '\x7d'] =
      .ok (text.toList ++ [], .manual) := rfl
  constructor
  · change Template.fill (.text (String.ofList ['\x7b', '0', '!', 's', '\x7d'])) _ _ = _
    simp only [Template.fill, String.toList_ofList, hchars]
    simp [Except.map]
  · rfl

theorem about_sourceSyntaxError {verbose row : Datum} (named : Named)
    (hverbose : named.lookup "verbose" = some verbose) (hrow : named.lookup "lineno" = some row)
    (filename : Datum) (text : String) :
    about sourceSyntaxError filename .null [.text text] named =
      .ok ⟨sourceSyntaxError,
        heading verbose filename row ((named.lookup "col").getD (.int 0)) ++ text, row,
        (named.lookup "col").getD (.int 0)⟩ := by
  have hnone : Datum.truthy .null = false := rfl
  have hcode : sourceSyntaxError.code.plain = "E402" := rfl
  have hcolumn : List.lookup "col" [("filename", filename), ("lineno", .int 0), ("col", .int 0)] =
      some (.int 0) := rfl
  obtain ⟨htemplate, hkeyword⟩ := fill_sourceSyntaxError text
    (named ++ [("filename", filename), ("lineno", .int 0), ("col", .int 0)])
  have hpure : (pure (.int 0) : Except Fault Datum) = .ok (.int 0) := rfl
  simp only [about, hnone, Bool.false_eq_true, if_false, List.lookup_append, hrow, hverbose, hpure,
    ok_bind, htemplate, hkeyword, hcode, hcolumn, Option.some_or, Option.getD_some, Option.getD_or,
    heading]
  split
  · simp only [Text.join, String.append_assoc]
    rfl
  · rfl

/-- The message and the named arguments are made up first, and then the diagnostic. -/
theorem compose_sourceSyntaxError_eq (filename message row offset text verbose : Datum) :
    sourceSyntaxError.compose filename [message, row, offset, text] [("verbose", verbose)] =
      (do
        let (shown, named) ← sourceLineArguments message offset text
          [("lineno", row), ("verbose", verbose)]
        if (named.lookup "loc").isSome then .error .wrongType
        about sourceSyntaxError filename .null [shown] named) :=
  rfl

/-- A text whose last line is `shown`: the line goes under the message, and a caret under the line if
a place in it is known. -/
theorem compose_sourceSyntaxError {source : String}
    (h : (Text.lines source.toList).getLast? = some shown)
    (filename row verbose : Datum) (message : String) (offset : Option Int) :
    let column := offset.elim 0 fun n => n - (source.toList.length - shown.length : Int)
    sourceSyntaxError.compose filename [.text message, row, offset.elim .null .int, .text source]
        [("verbose", verbose)] =
      .ok ⟨sourceSyntaxError,
        heading verbose filename row (.int column) ++ (message ++ ("\n" ++ String.ofList shown) ++
          offset.elim "" fun _ => "\n" ++ String.ofList (underline (upTo column shown) ++ ['^'])),
        row, .int column⟩ := by
  rw [compose_sourceSyntaxError_eq]
  cases offset with
  | none =>
    simp only [sourceLineArguments, Option.elim, h, ok_bind, extend, String.append_empty]
    exact about_sourceSyntaxError _ rfl rfl filename _
  | some n =>
    simp only [sourceLineArguments, Option.elim, h, ok_bind, extend]
    exact about_sourceSyntaxError _ rfl rfl filename _

theorem isBlank_of_mem_underline {c : Char} {cs : List Char} (h : c ∈ underline cs) :
    Text.isBlank c = true := by
  obtain ⟨d, -, rfl⟩ := List.mem_map.mp h
  by_cases hd : Text.isBlank d = true
  · rwa [if_pos hd]
  · rw [if_neg hd]
    decide

/-- The caret stands under column `k` of the last line: under each character before it there is a
blank, and a blank of the line stands for itself. -/
theorem caret_under_last_line (h : (Text.lines (before ++ last ++ ending)).getLast? = some last)
    {k : Nat} (hk : k ≤ last.length) (filename row verbose : Datum) (message : String) :
    ∃ pad : List Char, pad.length = k ∧ (∀ c ∈ pad, Text.isBlank c = true) ∧
      (∀ i < k, pad[i]? = last[i]?.map fun c => if Text.isBlank c then c else ' ') ∧
      sourceSyntaxError.compose filename
          [.text message, row, .int ((before.length + ending.length + k : Nat) : Int),
            .text (String.ofList (before ++ last ++ ending))]
          [("verbose", verbose)] =
        .ok ⟨sourceSyntaxError,
          (if verbose.truthy then
              filename.plain ++ ":" ++ row.plain ++ ":" ++ (Datum.int k).plain ++ ":E402::"
            else filename.plain ++ ":" ++ row.plain ++ ": ") ++
            message ++ "\n" ++ String.ofList last ++ "\n" ++ String.ofList pad ++ "^",
          row, .int k⟩ := by
  refine ⟨underline (last.take k), by simp [underline, hk],
    fun c => isBlank_of_mem_underline, ?_, ?_⟩
  · intro i hi
    rw [underline, List.getElem?_map, List.getElem?_take_of_lt hi]
  · rw [← String.toList_ofList (l := before ++ last ++ ending)] at h
    have hcompose := compose_sourceSyntaxError h filename row verbose message
      (some ((before.length + ending.length + k : Nat) : Int))
    have hcolumn : ((before.length + ending.length + k : Nat) : Int) -
        ((String.ofList (before ++ last ++ ending)).toList.length - last.length : Int) = k := by
      simp only [String.toList_ofList, List.length_append]
      omega
    have hshown : upTo k last = last.take k := by simp [upTo]
    simp only [Option.elim, hcolumn, hshown, heading] at hcompose
    rw [hcompose]
    simp only [String.ofList_append, String.append_assoc]

/-- A line that begins with a tab, after a line and before a break of other kinds. -/
theorem caret_under_last_line_tab :
    (Text.lines (['i', 'f', '\r', '\n'] ++ ['\t', 'x', '='] ++ ['\u2028'])).getLast? =
        some ['\t', 'x', '='] ∧
      ∃ pad : List Char, pad.length = 2 ∧ (∀ c ∈ pad, Text.isBlank c = true) ∧
        (∀ i < 2, pad[i]? = ['\t', 'x', '='][i]?.map fun c => if Text.isBlank c then c else ' ') ∧
        sourceSyntaxError.compose (.text "a.py")
            [.text "invalid syntax", .int 2, .int 7, .text "if\r\n\tx=\u2028"] [("verbose", .null)] =
          .ok ⟨sourceSyntaxError,
            "a.py:2: " ++ "invalid syntax" ++ "\n" ++ String.ofList ['\t', 'x', '='] ++ "\n" ++
              String.ofList pad ++ "^", .int 2, .int 2⟩ := by
  have hlast : (Text.lines (['i', 'f', '\r', '\n'] ++ ['\t', 'x', '='] ++ ['\u2028'])).getLast? =
      some ['\t', 'x', '='] := by decide
  exact ⟨hlast, caret_under_last_line hlast (k := 2) (by decide) (.text "a.py") (.int 2) .null
    "invalid syntax"⟩

end Kind

end ScopeLint
