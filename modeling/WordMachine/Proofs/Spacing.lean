import Mathlib.Data.List.DropRight
import WordMachine.Proofs.Words

/-! Spacing of a text as relations: which words stand in it, and what is left of it without the
blanks at its ends. -/
namespace WordMachine.Text

variable {w cs xs ys core : List Char} {ws : List (List Char)} {c : Char}

/-- A run of blanks, which may be empty. -/
def Blanks (w : List Char) : Prop := ∀ c ∈ w, isBlank c = true

structure IsWord (word : List Char) : Prop where
  nonempty : word ≠ []
  clear : ∀ c ∈ word, isBlank c = false

/-- The text is made of these words. Blanks may stand around them and have to stand between two. -/
inductive Spaced : List Char → List (List Char) → Prop
  | nil {w : List Char} (hw : Blanks w) : Spaced w []
  | cons {w word rest : List Char} {ws : List (List Char)} (hw : Blanks w) (hword : IsWord word)
      (hgap : ∀ c ∈ rest.head?, isBlank c = true) (hrest : Spaced rest ws) :
      Spaced (w ++ word ++ rest) (word :: ws)

/-- The text is `core` with blanks around it, and no blank is left at an end of `core`. -/
inductive Trimmed : List Char → List Char → Prop
  | intro {w core w' : List Char} (hw : Blanks w) (hw' : Blanks w')
      (hfirst : ∀ c ∈ core.head?, isBlank c = false)
      (hlast : ∀ c ∈ core.getLast?, isBlank c = false) : Trimmed (w ++ core ++ w') core

theorem blanks_nil : Blanks [] := fun _ hc => absurd hc List.not_mem_nil

theorem Blanks.append (hxs : Blanks xs) (hys : Blanks ys) : Blanks (xs ++ ys) := by
  intro c hc
  rcases List.mem_append.1 hc with hc | hc
  · exact hxs c hc
  · exact hys c hc

theorem Blanks.reverse (hw : Blanks w) : Blanks w.reverse :=
  fun c hc => hw c (List.mem_reverse.1 hc)

theorem Blanks.not_mem (hw : Blanks w) (hc : isBlank c = false) : c ∉ w := by
  intro hmem
  simp [hw c hmem] at hc

/-! ### Words -/

theorem words_append_of_blanks (hw : Blanks w) : words (w ++ cs) = words cs := by
  induction w with
  | nil => rfl
  | cons c w ih =>
    rw [List.cons_append, words_cons_of_blank (hw c List.mem_cons_self)]
    exact ih fun c' hc' => hw c' (List.mem_cons_of_mem c hc')

theorem words_of_spaced (h : Spaced cs ws) : words cs = ws := by
  induction h with
  | @nil w hw =>
    rw [← List.append_nil w, words_append_of_blanks hw, words_nil]
  | @cons w word rest ws hw hword hgap _ ih =>
    rw [List.append_assoc, words_append_of_blanks hw]
    cases rest with
    | nil => rw [List.append_nil, words_singleton hword.nonempty hword.clear, ← ih, words_nil]
    | cons c rest =>
      have hc := hgap c rfl
      rw [words_append hword.nonempty hword.clear hc, ← ih, words_cons_of_blank hc]

theorem Spaced.cons_blank (hc : isBlank c = true) (h : Spaced cs ws) : Spaced (c :: cs) ws := by
  have hblanks : ∀ {w}, Blanks w → Blanks (c :: w) := by
    intro w hw c' hc'
    rcases List.mem_cons.1 hc' with rfl | hc'
    · exact hc
    · exact hw c' hc'
  cases h with
  | nil hw => exact .nil (hblanks hw)
  | cons hw hword hgap hrest => exact .cons (hblanks hw) hword hgap hrest

/-- A character in front of a word makes it longer; in front of a blank it is a word of its own. -/
theorem Spaced.cons_letter (hc : isBlank c = false) (h : Spaced cs ws) :
    ∃ ws', Spaced (c :: cs) ws' := by
  have hsingle : IsWord [c] := ⟨by simp, by simpa using hc⟩
  cases h with
  | nil hw =>
    have hgap : ∀ c ∈ cs.head?, isBlank c = true := fun c hc => hw c (List.mem_of_mem_head? hc)
    exact ⟨[[c]], .cons blanks_nil hsingle hgap (.nil hw)⟩
  | @cons w word rest ws hw hword hgap hrest =>
    cases w with
    | nil =>
      have hlonger : IsWord (c :: word) := by
        refine ⟨by simp, fun c' hc' => ?_⟩
        rcases List.mem_cons.1 hc' with rfl | hc'
        · exact hc
        · exact hword.clear c' hc'
      exact ⟨_, .cons blanks_nil hlonger hgap hrest⟩
    | cons b w =>
      have hb : ∀ c ∈ (b :: w ++ word ++ rest).head?, isBlank c = true := by
        intro c' hc'
        cases hc'
        exact hw b List.mem_cons_self
      exact ⟨_, .cons blanks_nil hsingle hb (.cons hw hword hgap hrest)⟩

/-- By induction on the text: a blank in front changes no word, and another character begins one. -/
theorem exists_spaced (cs : List Char) : ∃ ws, Spaced cs ws := by
  induction cs with
  | nil => exact ⟨[], .nil blanks_nil⟩
  | cons c cs ih =>
    obtain ⟨ws, hws⟩ := ih
    cases hc : isBlank c with
    | true => exact ⟨ws, hws.cons_blank hc⟩
    | false => exact hws.cons_letter hc

theorem words_eq_iff : words cs = ws ↔ Spaced cs ws := by
  constructor
  · rintro rfl
    obtain ⟨ws, hws⟩ := exists_spaced cs
    rwa [words_of_spaced hws]
  · exact words_of_spaced

theorem spaced_nil_iff : Spaced cs [] ↔ Blanks cs := by
  constructor
  · rintro ⟨hw⟩
    exact hw
  · exact .nil

theorem spaced_singleton_iff {word : List Char} :
    Spaced cs [word] ↔
      IsWord word ∧ ∃ w w', Blanks w ∧ Blanks w' ∧ cs = w ++ word ++ w' := by
  constructor
  · rintro (_ | ⟨hw, hword, -, ⟨hw'⟩⟩)
    exact ⟨hword, _, _, hw, hw', rfl⟩
  · rintro ⟨hword, w, w', hw, hw', rfl⟩
    exact .cons hw hword (fun c hc => hw' c (List.mem_of_mem_head? hc)) (.nil hw')

/-- Something stands between two words, or they would be one. -/
theorem spaced_pair_iff {first second : List Char} :
    Spaced cs [first, second] ↔
      IsWord first ∧ IsWord second ∧ ∃ w gap w', Blanks w ∧ Blanks gap ∧ gap ≠ [] ∧ Blanks w' ∧
        cs = w ++ (first ++ gap ++ second) ++ w' := by
  constructor
  · rintro (_ | ⟨hw, hfirst, hhead, hrest⟩)
    obtain ⟨hsecond, gap, w', hgap, hw', rfl⟩ := spaced_singleton_iff.1 hrest
    refine ⟨hfirst, hsecond, _, gap, w', hw, hgap, ?_, hw', by simp⟩
    rintro rfl
    obtain ⟨c, rest, rfl⟩ := List.exists_cons_of_ne_nil hsecond.nonempty
    simp [hsecond.clear c List.mem_cons_self] at hhead
  · rintro ⟨hfirst, hsecond, w, gap, w', hw, hgap, hne, hw', rfl⟩
    have hsplit : w ++ (first ++ gap ++ second) ++ w' = w ++ first ++ (gap ++ second ++ w') := by
      simp
    have hrest : Spaced (gap ++ second ++ w') [second] :=
      spaced_singleton_iff.2 ⟨hsecond, gap, w', hgap, hw', rfl⟩
    rw [hsplit]
    refine .cons hw hfirst ?_ hrest
    obtain ⟨c, gap, rfl⟩ := List.exists_cons_of_ne_nil hne
    intro c' hc'
    cases hc'
    exact hgap c List.mem_cons_self

/-! ### Trimming -/

theorem dropWhile_blanks (hw : Blanks w) (hfirst : ∀ c ∈ core.head?, isBlank c = false) :
    (w ++ core).dropWhile isBlank = core := by
  rw [List.dropWhile_append_of_pos hw]
  cases core with
  | nil => rfl
  | cons c core => rw [List.dropWhile_cons_of_neg (by simp [hfirst c rfl])]

theorem trim_of_trimmed (h : Trimmed cs core) : trim cs = core := by
  obtain ⟨hw, hw', hfirst, hlast⟩ := h
  rename_i w w'
  have hend : trimEnd (core ++ w') = core := by
    rw [trimEnd, List.reverse_append, dropWhile_blanks hw'.reverse, List.reverse_reverse]
    rwa [List.head?_reverse]
  cases core with
  | nil =>
    have hstart : trimStart (w ++ [] ++ w') = [] := by
      have hboth : Blanks (w ++ w') := hw.append hw'
      rw [trimStart, List.append_nil, ← List.append_nil (w ++ w')]
      exact dropWhile_blanks hboth (by simp)
    rw [trim, hstart]
    rfl
  | cons c core =>
    have hstart : trimStart (w ++ (c :: core) ++ w') = c :: core ++ w' := by
      rw [trimStart, List.append_assoc]
      exact dropWhile_blanks hw hfirst
    rw [trim, hstart, hend]

theorem trimmed_trim (cs : List Char) : Trimmed cs (trim cs) := by
  have hstart := List.takeWhile_append_dropWhile (p := isBlank) (l := cs)
  have hend := List.takeWhile_append_dropWhile (p := isBlank) (l := (trimStart cs).reverse)
  have hmiddle : trimStart cs =
      trim cs ++ ((trimStart cs).reverse.takeWhile isBlank).reverse := by
    rw [trim, trimEnd, ← List.reverse_append, hend, List.reverse_reverse]
  have htext : cs = cs.takeWhile isBlank ++ trim cs ++
      ((trimStart cs).reverse.takeWhile isBlank).reverse := by
    rw [List.append_assoc, ← hmiddle]
    exact hstart.symm
  have hblanks : ∀ l : List Char, Blanks (l.takeWhile isBlank) :=
    fun l c hc => List.mem_takeWhile_imp hc
  have hhead : ∀ l : List Char, ∀ c ∈ (l.dropWhile isBlank).head?, isBlank c = false := by
    intro l c hc
    have hnot := List.head?_dropWhile_not isBlank l
    rwa [hc] at hnot
  have hfirst : ∀ c ∈ (trim cs).head?, isBlank c = false := by
    intro c hc
    apply hhead cs
    change (trimStart cs).head? = some c
    rw [hmiddle, List.head?_append, hc]
    rfl
  have hlast : ∀ c ∈ (trim cs).getLast?, isBlank c = false := by
    intro c hc
    rw [trim, trimEnd, List.getLast?_reverse] at hc
    exact hhead _ c hc
  have hintro := Trimmed.intro (hblanks cs) (hblanks (trimStart cs).reverse).reverse hfirst hlast
  rwa [← htext] at hintro

theorem trim_eq_iff : trim cs = core ↔ Trimmed cs core := by
  constructor
  · rintro rfl
    exact trimmed_trim cs
  · exact trim_of_trimmed

/-- Nothing is left of a text exactly when it has no words. -/
theorem trim_eq_nil_iff : trim cs = [] ↔ words cs = [] := by
  constructor
  · intro h
    rw [← words_trim, h, words_nil]
  · intro h
    cases words_eq_iff.1 h with
    | nil hw =>
      have htrimmed : Trimmed (cs ++ [] ++ []) [] := .intro hw blanks_nil (by simp) (by simp)
      simpa using trim_of_trimmed htrimmed

section Marked

variable (hc : isBlank c = false)
include hc

theorem dropWhile_append_cons (xs ys : List Char) :
    (xs ++ c :: ys).dropWhile isBlank = xs.dropWhile isBlank ++ c :: ys := by
  induction xs with
  | nil => simp [hc]
  | cons x xs ih =>
    cases hx : isBlank x with
    | true => simpa [hx] using ih
    | false => simp [hx]

/-- Trimming a text around a mark in it trims what is before the mark and what is after it. -/
theorem trim_append_cons (xs ys : List Char) :
    trim (xs ++ c :: ys) = trimStart xs ++ c :: trimEnd ys := by
  rw [trim, trimStart, dropWhile_append_cons hc, trimEnd, List.reverse_append, List.reverse_cons,
    List.append_assoc, List.singleton_append, dropWhile_append_cons hc]
  simp [trimStart, trimEnd]

end Marked

theorem trim_trimStart (cs : List Char) : trim (trimStart cs) = trim cs := by
  simp only [trim, trimStart, List.dropWhile_idempotent]

end WordMachine.Text
