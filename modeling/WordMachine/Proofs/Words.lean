import Mathlib.Data.List.Induction
import WordMachine.Text.Blank
import WordMachine.Text.Lines

/-! Lines and words of a text: a text written line by line has those lines, and blanks around a text
do not change its words. -/
namespace WordMachine.Text

variable {cs w rest : List Char} {c : Char} {ls : List (List Char)}

theorem splitOn_flatMap (h : ∀ l ∈ ls, '\n' ∉ l) :
    (ls.flatMap (· ++ ['\n'])).splitOn '\n' = ls ++ [[]] := by
  induction ls with
  | nil => simp
  | cons l ls ih =>
    have hl := h l List.mem_cons_self
    have hls := ih fun l' h' => h l' (List.mem_cons_of_mem l h')
    rw [List.flatMap_cons, List.append_assoc, List.singleton_append,
      List.splitOn_append_cons_self_of_not_mem hl, hls, List.cons_append]

theorem dropReturn_of_not_mem (h : '\r' ∉ cs) : dropReturn cs = cs := by
  rw [dropReturn, if_neg]
  intro hlast
  exact h (List.mem_of_getLast? hlast)

/-- A line feed ends a line, and nothing is left after the last one. -/
theorem lines_flatMap (hfeed : ∀ l ∈ ls, '\n' ∉ l) (hreturn : ∀ l ∈ ls, '\r' ∉ l) :
    lines (ls.flatMap (· ++ ['\n'])) = ls := by
  have hdrop : ls.map dropReturn = ls := by
    refine (List.map_congr_left fun l hl => dropReturn_of_not_mem (hreturn l hl)).trans ?_
    exact List.map_id' ls
  simp [lines, splitOn_flatMap hfeed, hdrop]

theorem isBlank_of_isAlphanum (h : c.isAlphanum = true) : isBlank c = false := by
  have hrange : 48 ≤ c.toNat ∧ c.toNat ≤ 122 := by
    delta Char.isAlphanum Char.isAlpha Char.isUpper Char.isLower Char.isDigit at h
    simp [UInt32.le_iff_toNat_le] at h
    omega
  simp only [isBlank, Bool.or_eq_false_iff, Bool.and_eq_false_iff, beq_eq_false_iff_ne,
    decide_eq_false_iff_not]
  omega

theorem words_nil : words [] = [] := rfl

theorem words_cons_of_blank (hc : isBlank c = true) : words (c :: cs) = words cs := by
  simp [words, List.splitOnP_cons_eq_if_modifyHead, hc]

theorem words_concat_of_blank (hc : isBlank c = true) : words (cs ++ [c]) = words cs := by
  rw [words, List.splitOnP_append_cons cs [] hc]
  simp [words]

theorem words_trimStart (cs : List Char) : words (trimStart cs) = words cs := by
  induction cs with
  | nil => rfl
  | cons c cs ih =>
    by_cases hc : isBlank c = true
    · rw [words_cons_of_blank hc, ← ih, trimStart, List.dropWhile_cons_of_pos hc, trimStart]
    · rw [trimStart, List.dropWhile_cons_of_neg hc]

theorem words_trimEnd (cs : List Char) : words (trimEnd cs) = words cs := by
  induction cs using List.reverseRecOn with
  | nil => rfl
  | append_singleton cs c ih =>
    rw [trimEnd, List.reverse_append, List.reverse_singleton, List.singleton_append]
    by_cases hc : isBlank c = true
    · rw [List.dropWhile_cons_of_pos hc, words_concat_of_blank hc, ← ih, trimEnd]
    · rw [List.dropWhile_cons_of_neg hc]
      simp

theorem words_trim (cs : List Char) : words (trim cs) = words cs := by
  rw [trim, words_trimEnd, words_trimStart]

/-- A word before a blank is the first of the words. -/
theorem words_append (hw : w ≠ []) (hclear : ∀ c ∈ w, isBlank c = false) (hc : isBlank c = true) :
    words (w ++ c :: rest) = w :: words rest := by
  rw [words, List.splitOnP_append_cons_of_forall_mem hclear c hc]
  simp [words, hw]

theorem words_singleton (hw : w ≠ []) (hclear : ∀ c ∈ w, isBlank c = false) : words w = [w] := by
  rw [words, List.splitOnP_eq_singleton hclear]
  simp [hw]

theorem mem_of_mem_trim (h : c ∈ trim cs) : c ∈ cs := by
  simp only [trim, trimEnd, List.mem_reverse] at h
  have hstart := (List.dropWhile_sublist _).subset h
  rw [List.mem_reverse] at hstart
  exact (List.dropWhile_sublist _).subset hstart

end WordMachine.Text
