import Mathlib.Algebra.GroupWithZero.Nat
import ScopeLint.Doctest

/-! # How large the source of an example can be

Tabs are expanded before examples are cut out of a text, so the source of an example can be longer
than the text. Once tabs are expanded in both, or where blanks do not count, it weighs no more. -/
namespace ScopeLint.Doctest

open List

/-- Which characters of a text count, each as one: a line break no more than one of a prompt. -/
structure Weight where
  of : Char → Nat
  le_one : ∀ c, of c ≤ 1
  newline_le : of '\n' ≤ of '>'

namespace Weight

def length : Weight := ⟨fun _ => 1, fun _ => Nat.le_refl 1, Nat.le_refl 1⟩

def sum (w : Weight) (cs : List Char) : Nat := (cs.map w.of).sum

def text (w : Weight) (s : String) : Nat := w.sum (expandTabs 0 s.toList)

/-- The weight of lines, each with a line break. -/
def lines (w : Weight) (ls : List (List Char)) : Nat := (ls.map fun l => w.sum l + w.of '\n').sum

variable (w : Weight)

@[simp]
theorem sum_nil : w.sum [] = 0 := rfl

@[simp]
theorem sum_cons (c : Char) (cs : List Char) : w.sum (c :: cs) = w.of c + w.sum cs := by
  simp [sum]

@[simp]
theorem sum_append (cs ds : List Char) : w.sum (cs ++ ds) = w.sum cs + w.sum ds := by
  simp [sum]

theorem sum_le_length (cs : List Char) : w.sum cs ≤ cs.length := by
  induction cs with
  | nil => exact Nat.le_refl _
  | cons c rest ih =>
    have hc := w.le_one c
    rw [sum_cons, length_cons]
    omega

theorem sum_mono {cs ds : List Char} (h : cs.Sublist ds) : w.sum cs ≤ w.sum ds := by
  induction h with
  | slnil => exact Nat.le_refl _
  | cons c _ ih =>
    rw [sum_cons]
    omega
  | cons_cons c _ ih =>
    rw [sum_cons, sum_cons]
    omega

@[simp]
theorem lines_nil : w.lines [] = 0 := rfl

@[simp]
theorem lines_cons (l : List Char) (ls : List (List Char)) :
    w.lines (l :: ls) = w.sum l + w.of '\n' + w.lines ls := by
  simp [lines]

theorem lines_mono {ks ls : List (List Char)} (h : ks.Sublist ls) : w.lines ks ≤ w.lines ls := by
  induction h with
  | slnil => exact Nat.le_refl _
  | cons l _ ih =>
    rw [lines_cons]
    omega
  | cons_cons l _ ih =>
    rw [lines_cons, lines_cons]
    omega

/-- Nothing is lost when a text is cut into lines. -/
theorem lines_splitAt (cs : List Char) : w.lines (Text.splitAt '\n' cs) = w.sum cs + w.of '\n' := by
  induction cs with
  | nil => simp [Text.splitAt]
  | cons c rest ih =>
    rw [Text.splitAt]
    split
    · rename_i hc
      rw [lines_cons, ih, sum_cons, hc, sum_nil]
      omega
    · cases hpieces : Text.splitAt '\n' rest with
      | nil =>
        rw [hpieces, lines_nil] at ih
        simp
        omega
      | cons piece pieces =>
        rw [hpieces, lines_cons] at ih
        simp only [lines_cons, sum_cons]
        omega

theorem lines_map_drop_le (k : Nat) (ls : List (List Char)) :
    w.lines (ls.map (·.drop k)) ≤ w.lines ls := by
  induction ls with
  | nil => exact Nat.le_refl _
  | cons l rest ih =>
    have hl := w.sum_mono (drop_sublist k l)
    simp only [map_cons, lines_cons]
    omega

theorem sum_join {ls : List (List Char)} (h : ls ≠ []) :
    w.sum (Text.join "\n" (ls.map String.ofList)).toList + w.of '\n' = w.lines ls := by
  induction ls with
  | nil => exact absurd rfl h
  | cons l rest ih =>
    cases rest with
    | nil => simp [Text.join]
    | cons l' rest =>
      have hrest := ih (by simp)
      rw [map_cons] at hrest
      simp only [map_cons, Text.join, String.toList_append, sum_append, lines_cons] at hrest ⊢
      simp only [String.toList_ofList]
      have hbreak : w.sum "\n".toList = w.of '\n' := by simp
      omega

end Weight

theorem drop_margin (l : List Char) : l.drop (margin l) = afterMargin l := by
  induction l with
  | nil => rfl
  | cons c rest ih =>
    rw [margin, afterMargin, takeWhile_cons, dropWhile_cons]
    split
    · exact ih
    · rfl

variable {l cs : List Char} {cut line : Nat} {source expected : List (List Char)} {e : Example}
  {examples : List Example} {c : Char}

theorem Weight.sum_drop_prompt (w : Weight) (h : isPrompt l = true) :
    w.sum (l.drop (margin l + 4)) + w.of '\n' ≤ w.sum l := by
  obtain ⟨tail, htail⟩ := isPrefixOf_iff_prefix.mp h
  have hmark : ">>>".toList = ['>', '>', '>'] := by decide
  have hprompt : l.drop (margin l) = '>' :: '>' :: '>' :: tail := by
    rw [drop_margin, ← htail, hmark]
    rfl
  have hdrop : l.drop (margin l + 4) = tail.drop 1 := by rw [← drop_drop, hprompt]; rfl
  have hrest := w.sum_mono (drop_sublist 1 tail)
  have hall := w.sum_mono (drop_sublist (margin l) l)
  rw [hprompt] at hall
  simp only [Weight.sum_cons] at hall
  have hnewline := w.newline_le
  rw [hdrop]
  omega

theorem Weight.sum_endLine_le (w : Weight) (cs : List Char) :
    w.sum (endLine cs) ≤ w.sum cs + w.of '\n' := by
  unfold endLine
  split
  · omega
  · simp

theorem source_of_read? (h : read? cut line source expected = some (some e)) :
    e.source.toList = endLine (Text.join "\n" (source.map fun l =>
      String.ofList (l.drop (margin (source.headD []) + 4)))).toList := by
  simp only [read?] at h
  split at h
  · split at h
    · cases h
    · cases h
      rw [String.toList_ofList]
  · cases h

theorem Weight.sum_source_le (w : Weight) {more : List (List Char)} (hprompt : isPrompt l = true)
    (h : read? cut line (l :: more) expected = some (some e)) :
    w.sum e.source.toList + w.of '\n' ≤ w.lines (l :: more) := by
  have hjoin : w.sum (Text.join "\n" ((l :: more).map fun l' =>
      String.ofList (l'.drop (margin l + 4)))).toList + w.of '\n' =
      w.lines ((l :: more).map (·.drop (margin l + 4))) := by
    rw [← w.sum_join (by simp), map_map]
    rfl
  have hend := w.sum_endLine_le (Text.join "\n" ((l :: more).map fun l' =>
    String.ofList (l'.drop (margin l + 4)))).toList
  have hlines : w.lines ((l :: more).map (·.drop (margin l + 4))) =
      w.sum (l.drop (margin l + 4)) + w.of '\n' + w.lines (more.map (·.drop (margin l + 4))) :=
    w.lines_cons _ _
  have hfirst := w.sum_drop_prompt hprompt
  have hmore := w.lines_map_drop_le (margin l + 4) more
  rw [source_of_read? h, headD_cons, Weight.lines_cons]
  omega

/-- Every example is read from lines of the text that start with a prompt. -/
theorem exists_read_of_examplesWithin {fuel : Nat} {ls : List (List Char)}
    (h : examplesWithin cut fuel line ls = some examples) (he : e ∈ examples) :
    ∃ l more expected line', isPrompt l = true ∧ (l :: more).Sublist ls ∧
      read? cut line' (l :: more) expected = some (some e) := by
  induction fuel generalizing line ls examples with
  | zero =>
    cases h
    cases he
  | succ fuel ih =>
    cases ls with
    | nil =>
      cases h
      cases he
    | cons l rest =>
      rw [examplesWithin] at h
      split at h
      · rename_i hprompt
        dsimp only at h
        split at h
        · rename_i found later hfound hlater
          cases h
          rcases mem_append.mp he with he | he
          · obtain rfl : found = some e := Option.mem_toList.mp he
            exact ⟨l, _, _, line, hprompt, (takeWhile_sublist _).cons_cons l, hfound⟩
          · obtain ⟨l', more, expected, line', hl', hsub, hread⟩ := ih hlater he
            refine ⟨l', more, expected, line', hl', ?_, hread⟩
            exact ((hsub.trans (dropWhile_sublist _)).trans (dropWhile_sublist _)).cons l
        · cases h
      · obtain ⟨l', more, expected, line', hl', hsub, hread⟩ := ih h he
        exact ⟨l', more, expected, line', hl', hsub.cons l, hread⟩

theorem tab_not_mem_expandTabs (column : Nat) (cs : List Char) : '\t' ∉ expandTabs column cs := by
  fun_induction expandTabs column cs with
  | case1 => simp
  | case2 column rest width ih => simp [ih]
  | case3 column c rest htab hbreak ih => simp [ih, Ne.symm htab]
  | case4 column c rest htab hbreak ih => simp [ih, Ne.symm htab]

theorem expandTabs_of_not_mem {column : Nat} (h : '\t' ∉ cs) : expandTabs column cs = cs := by
  fun_induction expandTabs column cs with
  | case1 => rfl
  | case2 => simp at h
  | case3 column c rest htab hbreak ih => rw [ih fun hmem => h (mem_cons_of_mem c hmem)]
  | case4 column c rest htab hbreak ih => rw [ih fun hmem => h (mem_cons_of_mem c hmem)]

theorem mem_of_mem_splitAt {sep : Char} {piece : List Char} (h : piece ∈ Text.splitAt sep cs)
    (hc : c ∈ piece) : c ∈ cs := by
  induction cs generalizing piece with
  | nil =>
    obtain rfl := mem_singleton.mp h
    exact hc
  | cons d rest ih =>
    rw [Text.splitAt] at h
    split at h
    · rcases mem_cons.mp h with rfl | h
      · cases hc
      · exact mem_cons_of_mem _ (ih h hc)
    · split at h
      · obtain rfl := mem_singleton.mp h
        exact mem_cons.mpr (.inl (mem_singleton.mp hc))
      · rename_i first pieces hpieces
        rw [hpieces] at ih
        rcases mem_cons.mp h with rfl | h
        · exact (mem_cons.mp hc).elim (fun hd => mem_cons.mpr (.inl hd))
            fun hfirst => mem_cons_of_mem _ (ih mem_cons_self hfirst)
        · exact mem_cons_of_mem _ (ih (mem_cons_of_mem _ h) hc)

theorem mem_of_mem_join {ls : List String} (h : c ∈ (Text.join "\n" ls).toList) :
    c = '\n' ∨ ∃ l ∈ ls, c ∈ l.toList := by
  induction ls with
  | nil => simp [Text.join] at h
  | cons l rest ih =>
    cases rest with
    | nil => exact .inr ⟨l, mem_cons_self, h⟩
    | cons l' rest =>
      rw [Text.join, String.toList_append, String.toList_append, mem_append,
        mem_append] at h
      · rcases h with (h | h) | h
        · exact .inr ⟨l, mem_cons_self, h⟩
        · exact .inl (by simpa using h)
        · exact (ih h).imp_right fun ⟨found, hfound, hc⟩ => ⟨found, mem_cons_of_mem _ hfound, hc⟩
      · simp

/-- The source of an example has no tabs where the lines have none that it is read from. -/
theorem tab_not_mem_source (h : read? cut line source expected = some (some e))
    (htabs : ∀ l ∈ source, '\t' ∉ l) : '\t' ∉ e.source.toList := by
  rw [source_of_read? h]
  intro hmem
  have hjoined : '\t' ∈ (Text.join "\n" (source.map fun l =>
      String.ofList (l.drop (margin (source.headD []) + 4)))).toList := by
    unfold endLine at hmem
    split at hmem
    · exact hmem
    · simpa using hmem
  rcases mem_of_mem_join hjoined with htab | ⟨s, hs, htab⟩
  · cases htab
  · obtain ⟨l, hl, rfl⟩ := mem_map.mp hs
    rw [String.toList_ofList] at htab
    exact htabs l hl (mem_of_mem_drop htab)

/-- The source of an example weighs no more than the text that it is cut from. -/
theorem Weight.text_source_le (w : Weight) {text : String} (h : examples? text = some examples)
    (he : e ∈ examples) : w.text e.source ≤ w.text text := by
  have hcut := w.lines_splitAt (expandTabs 0 text.toList)
  have hnotab : ∀ l ∈ Text.splitAt '\n' (expandTabs 0 text.toList), '\t' ∉ l := fun l hl htab =>
    tab_not_mem_expandTabs 0 text.toList (mem_of_mem_splitAt hl htab)
  rw [examples?] at h
  generalize Text.splitAt '\n' (expandTabs 0 text.toList) = all at h hcut hnotab
  obtain ⟨l, more, expected, line, hprompt, hsub, hread⟩ := exists_read_of_examplesWithin h he
  have htabs : ∀ l' ∈ l :: more, '\t' ∉ l' := by
    intro l' hl' htab
    obtain ⟨line, hline, rfl⟩ := mem_map.mp (hsub.subset hl')
    exact hnotab line hline (mem_of_mem_drop htab)
  have hsource := w.sum_source_le hprompt hread
  have hlines : w.lines (l :: more) ≤ w.lines (all.map (·.drop (commonMargin all))) :=
    w.lines_mono hsub
  have hdrop := w.lines_map_drop_le (commonMargin all) all
  rw [Weight.text, expandTabs_of_not_mem (tab_not_mem_source hread htabs), Weight.text]
  omega

end ScopeLint.Doctest
