import ScopeLint.Proofs.Settings
import ScopeLint.Skip

/-! # The names on a path

A path is cut at its last slash again and again. What comes off are its components, the last one first,
without the empty ones between repeated slashes. -/
namespace ScopeLint

open List

namespace Text

theorem splitAt_ne_nil (sep : Char) (cs : List Char) : splitAt sep cs ≠ [] := by
  cases cs with
  | nil => simp [splitAt]
  | cons c rest =>
    rw [splitAt]
    split
    · simp
    · split <;> simp

theorem split_ne_nil (sep : Char) (s : String) : split sep s ≠ [] := by
  rw [split, ne_eq, map_eq_nil_iff]
  exact splitAt_ne_nil sep s.toList

theorem splitAt_append (sep : Char) (before rest : List Char) :
    splitAt sep (before ++ sep :: rest) = splitAt sep before ++ splitAt sep rest := by
  induction before with
  | nil => simp [splitAt]
  | cons c before ih =>
    rw [cons_append, splitAt, splitAt, ih]
    split
    · rfl
    · cases hpieces : splitAt sep before with
      | nil => exact absurd hpieces (splitAt_ne_nil sep before)
      | cons piece pieces => rfl

theorem splitAt_of_not_mem {sep : Char} {piece : List Char} (h : sep ∉ piece) :
    splitAt sep piece = [piece] := by
  induction piece with
  | nil => rfl
  | cons c piece ih =>
    rw [mem_cons, not_or] at h
    rw [splitAt, if_neg (Ne.symm h.1), ih h.2]

end Text

namespace Path

variable {cs head tail : List Char}

/-- What is at the end of a text for as long as a test holds, and what is before it. -/
theorem exists_back (p : Char → Bool) (cs : List Char) : ∃ front back, cs = front ++ back ∧
    (cs.reverse.dropWhile p).reverse = front ∧ (cs.reverse.takeWhile p).reverse = back ∧
    (∀ c ∈ back, p c = true) ∧ (front = [] ∨ ∃ more c, front = more ++ [c] ∧ p c = false) := by
  refine ⟨_, _, ?_, rfl, rfl, fun c hc => ?_, ?_⟩
  · rw [← reverse_append, takeWhile_append_dropWhile, reverse_reverse]
  · exact all_eq_true.mp all_takeWhile c (mem_reverse.mp hc)
  · have hhead := head?_dropWhile_not p cs.reverse
    cases hdrop : cs.reverse.dropWhile p with
    | nil => exact .inl rfl
    | cons c more =>
      rw [hdrop] at hhead
      exact .inr ⟨more.reverse, c, reverse_cons, hhead⟩

/-- A path is cut behind its last slash, if it has one. -/
theorem exists_cut (cs : List Char) : ∃ head tail, cut cs = (head, tail) ∧ cs = head ++ tail ∧
    '/' ∉ tail ∧ (head = [] ∨ ∃ front, head = front ++ ['/']) := by
  obtain ⟨head, tail, rfl, -, htail, hback, hfront⟩ := exists_back (· != '/') cs
  refine ⟨head, tail, ?_, rfl, fun h => by simpa using hback _ h, hfront.imp_right ?_⟩
  · rw [cut, htail, length_append, Nat.add_sub_cancel, take_left]
  · rintro ⟨front, c, rfl, hc⟩
    exact ⟨front, by simpa using hc⟩

/-- A path that has more than slashes loses those behind its last other character. -/
theorem dropSlashes_cases (cs : List Char) : ((∀ c ∈ cs, c = '/') ∧ dropSlashes cs = cs) ∨
    ∃ front c k, c ≠ '/' ∧ cs = front ++ c :: replicate k '/' ∧
      dropSlashes cs = front ++ [c] := by
  obtain ⟨front, back, hcs, hdrop, -, hback, hfront⟩ := exists_back (· == '/') cs
  have hslashes : ∀ c ∈ back, c = '/' := fun c hc => by simpa using hback c hc
  rcases hfront with rfl | ⟨front, c, rfl, hc⟩
  · rw [hcs, nil_append]
    exact .inl ⟨hslashes, if_pos (all_eq_true.mpr hback)⟩
  · have hsome : ¬ cs.all (· == '/') = true := by simp_all
    rw [eq_replicate_of_mem hslashes] at hcs
    exact .inr ⟨front, c, _, by simpa using hc, by simpa using hcs, (if_neg hsome).trans hdrop⟩

/-- The components of a path that are not empty. -/
def parts (cs : List Char) : List (List Char) := (Text.splitAt '/' cs).filter (· ≠ [])

theorem parts_append (before rest : List Char) :
    parts (before ++ '/' :: rest) = parts before ++ parts rest := by
  rw [parts, Text.splitAt_append, filter_append, parts, parts]

theorem parts_replicate (k : Nat) : parts (replicate k '/') = [] := by
  induction k with
  | zero => rfl
  | succ k ih => exact (parts_append [] _).trans (by rw [ih]; rfl)

theorem parts_dropSlashes (cs : List Char) : parts (dropSlashes cs) = parts cs := by
  rcases dropSlashes_cases cs with ⟨-, h⟩ | ⟨front, c, k, -, rfl, h⟩
  · rw [h]
  · rw [h]
    cases k with
    | zero => rfl
    | succ k =>
      have happend : front ++ c :: replicate (k + 1) '/' =
          (front ++ [c]) ++ '/' :: replicate k '/' := by simp [replicate_succ]
      rw [happend, parts_append, parts_replicate, append_nil]

theorem parts_cut (h : cut cs = (head, tail)) (htail : tail ≠ []) :
    parts cs = parts head ++ [tail] := by
  obtain ⟨_, _, h', hcs, hslash, hhead⟩ := exists_cut cs
  cases h.symm.trans h'
  have hlast : parts tail = [tail] := by simp [parts, Text.splitAt_of_not_mem hslash, htail]
  rcases hhead with rfl | ⟨front, rfl⟩
  · rw [hcs, nil_append, hlast]
    rfl
  · rw [hcs, append_assoc, singleton_append, parts_append, hlast, parts_append]
    simp [parts, Text.splitAt]

theorem length_dropSlashes_le (cs : List Char) : (dropSlashes cs).length ≤ cs.length := by
  rcases dropSlashes_cases cs with ⟨-, h⟩ | ⟨front, c, k, -, hcs, h⟩
  · exact Nat.le_of_eq (congrArg _ h)
  · rw [h, hcs]
    simp

theorem length_parent_lt (h : cut cs = (head, tail)) (htail : tail ≠ []) :
    (dropSlashes head).length < cs.length := by
  obtain ⟨_, _, h', rfl, -⟩ := exists_cut cs
  cases h.symm.trans h'
  rw [length_append]
  exact Nat.lt_of_le_of_lt (length_dropSlashes_le _)
    (Nat.lt_add_of_pos_right (length_pos_iff.mpr htail))

theorem namesFrom_dropSlashes {fuel : Nat} (h : (dropSlashes cs).length < fuel) :
    namesFrom fuel (String.ofList (dropSlashes cs)) = ((parts cs).map String.ofList).reverse := by
  induction fuel generalizing cs with
  | zero => exact absurd h (Nat.not_lt_zero _)
  | succ fuel ih =>
    obtain ⟨head, tail, hcut, hcs, -, hhead⟩ := exists_cut (dropSlashes cs)
    have hlast : splitLast (String.ofList (dropSlashes cs)) =
        (String.ofList (dropSlashes head), String.ofList tail) := by
      rw [splitLast, String.toList_ofList, hcut]
    rw [namesFrom, hlast]
    by_cases htail : tail = []
    · -- Nothing but slashes is left.
      rw [htail, append_nil] at hcs
      rcases dropSlashes_cases cs with ⟨hall, -⟩ | ⟨front, c, -, hc, -, hdrop⟩
      · rw [htail, eq_replicate_of_mem hall, parts_replicate]
        rfl
      · rcases hhead with rfl | ⟨front', rfl⟩
        · simp [hdrop] at hcs
        · exact absurd (by simpa using (append_inj' (hdrop.symm.trans hcs) rfl).2) hc
    · rw [← parts_dropSlashes cs, parts_cut hcut htail]
      simp [htail, ih (Nat.lt_of_lt_of_le (length_parent_lt hcut htail) (Nat.le_of_lt_succ h))]

theorem dropSlashes_of_getLast? (h : cs.getLast? ≠ some '/') : dropSlashes cs = cs := by
  rcases dropSlashes_cases cs with ⟨-, h⟩ | ⟨front, c, k, -, rfl, hdrop⟩
  · exact h
  · cases k with
    | zero => exact hdrop
    | succ k => simp [getLast?_append, getLast?_cons, getLast?_replicate] at h

/-- The names on a path are its components, the last one first. -/
theorem names_eq {path : String} (h : path.toList.getLast? ≠ some '/') :
    names path = ((Text.split '/' path).filter (· ≠ "")).reverse := by
  have hnames := namesFrom_dropSlashes (Nat.lt_succ_self (dropSlashes path.toList).length)
  rw [dropSlashes_of_getLast? h, String.ofList_toList] at hnames
  have hempty (part : List Char) : decide (String.ofList part ≠ "") = decide (part ≠ []) := by
    simp [← String.toList_inj]
  rw [Text.split, filter_map, Function.comp_def, funext hempty]
  exact hnames

/-- The bound on the number of names is never met: the cutting goes on until there is no name. -/
theorem names_eq_cut (path : String) :
    names path = if base path = "" then [] else base path :: names (directory path) := by
  obtain ⟨head, tail, hcut, -⟩ := exists_cut path.toList
  have hlast : splitLast path = (String.ofList (dropSlashes head), String.ofList tail) := by
    rw [splitLast, hcut]
  rw [names, namesFrom, base, directory, hlast]
  dsimp only
  split
  · rfl
  · have htail : tail ≠ [] := by
      rintro rfl
      contradiction
    rw [← String.length_toList, namesFrom_dropSlashes (length_parent_lt hcut htail), names,
      String.length_ofList, namesFrom_dropSlashes (Nat.lt_succ_self _)]

end Path

variable {items : List Datum} {path : String}

theorem anyOf_lists (names : List String) :
    anyOf (fun name => (Datum.list items).lists (.text name)) names =
      .ok (names.any fun name => Datum.among items (.text name)) := by
  induction names with
  | nil => rfl
  | cons name rest ih =>
    rw [anyOf, Datum.lists, ok_bind, ih]
    cases h : Datum.among items (.text name) with
    | true => simp [h, pure, Except.pure]
    | false => simp [h]

/-- A file is left out if it is listed as it is written or if a component of its path is. The
components are gone through to the first one, and nothing but a slash parts them. -/
theorem isSkipped_iff_component_listed (items : List Datum) (path : String)
    (h : path.toList.getLast? ≠ some '/') :
    (∃ skipped, isSkipped (.list items) (.text path) = .ok skipped ∧
      (skipped = true ↔ .text path ∈ items ∨
        ∃ name ∈ Text.split '/' path, name ≠ "" ∧ .text name ∈ items)) ∧
    ∀ p, Path.names p =
      if Path.base p = "" then [] else Path.base p :: Path.names (Path.directory p) := by
  refine ⟨?_, Path.names_eq_cut⟩
  rw [isSkipped, Datum.lists, ok_bind]
  by_cases hlisted : Datum.text path ∈ items
  · rw [if_pos (Datum.among_text.mpr hlisted)]
    exact ⟨true, rfl, by simp [hlisted]⟩
  · rw [if_neg (mt Datum.among_text.mp hlisted)]
    refine ⟨_, anyOf_lists _, ?_⟩
    simp [Path.names_eq h, Datum.among_text, hlisted]

theorem isSkipped_iff_component_listed_inner :
    "/a//b.d/./c.py".toList.getLast? ≠ some '/' ∧
    ∃ skipped, isSkipped (.list [.text "b", .int 3, .text "b.d"]) (.text "/a//b.d/./c.py") =
        .ok skipped ∧
      (skipped = true ↔ .text "/a//b.d/./c.py" ∈ [Datum.text "b", .int 3, .text "b.d"] ∨
        ∃ name ∈ Text.split '/' "/a//b.d/./c.py",
          name ≠ "" ∧ .text name ∈ [Datum.text "b", .int 3, .text "b.d"]) :=
  ⟨by decide, (isSkipped_iff_component_listed _ _ (by decide)).1⟩

end ScopeLint
