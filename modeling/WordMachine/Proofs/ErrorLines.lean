import WordMachine.Proofs.Passes

/-! The line of an error: it is a line of the text, and the error is shown with it. -/
namespace WordMachine

namespace Text

variable {s : String} {width : Nat}

/-- The column ends in `s`. Spaces fill it up in front, and what does not fit is not cut. -/
def FlushRight (width : Nat) (s column : String) : Prop :=
  ∃ n, column.toList = List.replicate n ' ' ++ s.toList ∧ column.length = max width s.length

/-- The line without the blanks at its end. -/
def TrimmedEnd (line core : List Char) : Prop :=
  ∃ w, Blanks w ∧ line = core ++ w ∧ ∀ c ∈ core.getLast?, isBlank c = false

theorem flushRight_right (width : Nat) (s : String) : FlushRight width s (right width s) := by
  refine ⟨width - s.length, by simp [right, blanks], ?_⟩
  rw [right, String.length_append, blanks, String.length_ofList, List.length_replicate]
  omega

theorem trimmedEnd_trimEnd (line : List Char) : TrimmedEnd line (trimEnd line) := by
  have hsplit := List.takeWhile_append_dropWhile (p := isBlank) (l := line.reverse)
  refine ⟨(line.reverse.takeWhile isBlank).reverse, ?_, ?_, ?_⟩
  · exact Blanks.reverse fun c hc => List.mem_takeWhile_imp hc
  · rw [trimEnd, ← List.reverse_append, hsplit, List.reverse_reverse]
  · intro c hc
    rw [trimEnd, List.getLast?_reverse] at hc
    have hnot := List.head?_dropWhile_not isBlank line.reverse
    rwa [hc] at hnot

end Text

namespace Source

variable {text : String} {texts : List (List Char)} {ls : List Line} {e : Error} {n size : Nat}
  {cause : Cause} {name : String} {first : Nat} {faults : Nat → Cause → Prop}

/-- The error is about a line of the text, and a label that it calls a duplicate has its first
definition on an earlier one. What is shown of it ends with its line. -/
structure Error.PointsInto (e : Error) (text : String) : Prop where
  line_pos : 1 ≤ e.line
  line_le : e.line ≤ (Text.lines text.toList).length
  first_definition : ∀ name first, e.cause = .duplicateLabel name first →
    1 ≤ first ∧ first < e.line ∧ DefinedOn (Text.lines text.toList) first name ∧
      DefinedOn (Text.lines text.toList) e.line name
  shown : ∃ line column core, (Text.lines text.toList)[e.line - 1]? = some line ∧
    Text.FlushRight 4 e.line.repr column ∧ Text.TrimmedEnd line core ∧
    e.render text = e.message ++ "\n  " ++ column ++ " | " ++ String.ofList core

theorem Reports.line_bounds (h : Reports faults e) (hlt : ∀ n cause, faults n cause → n < size) :
    1 ≤ e.line ∧ e.line ≤ size := by
  obtain ⟨n, hline, hfault, -⟩ := h
  have hn := hlt n e.cause hfault
  omega

theorem SyntaxFault.lt (h : SyntaxFault texts n cause) : n < texts.length := by
  obtain ⟨text, htext, -⟩ := h
  exact (List.getElem?_eq_some_iff.1 htext).1

/-- A line is parsed without regard to the labels of others. -/
theorem SyntaxFault.ne_duplicateLabel (h : SyntaxFault texts n cause) :
    cause ≠ .duplicateLabel name first := by
  obtain ⟨text, -, herror⟩ := h
  have hrefused := Line.parse_eq_error_iff.1 herror
  generalize Line.code text = body at hrefused
  rintro rfl
  rcases hrefused with _ | ⟨-, hwords⟩
  cases hwords

theorem LayoutFault.defines (h : LayoutFault ls n (.duplicateLabel name first)) :
    ∃ k < n, first = k + 1 ∧ Defines ls k name ∧ Defines ls n name := by
  cases h with
  | duplicate _ hn hlt hfirst => exact ⟨_, hlt, rfl, hfirst, hn⟩

theorem OperandFault.ne_duplicateLabel (h : OperandFault ls n cause) :
    cause ≠ .duplicateLabel name first := by
  rintro rfl
  cases h

theorem OperandFault.lt (h : OperandFault ls n cause) : n < ls.length := by
  obtain ⟨s, hs⟩ := h.holds
  exact hs.lt

/-- The stage that reports the error of a text. -/
theorem reports_of_assemble (h : assemble text = .error e) :
    Reports (SyntaxFault (Text.lines text.toList)) e ∨
      ∃ ls, ParsesTo (Text.lines text.toList) ls ∧
        (Reports (LayoutFault ls) e ∨ Reports (OperandFault ls) e) := by
  rcases assemble_eq_error_iff.1 h with hparse | ⟨ls, hls, hlayout | ⟨l, hl, hlisting⟩⟩
  · exact .inl (parseLines_eq_error_iff.1 hparse)
  · exact .inr ⟨ls, hls, .inl (Layout.ofLines_eq_error_iff.1 hlayout)⟩
  · exact .inr ⟨ls, hls, .inr ((listing_reports hls hl e).1 hlisting)⟩

theorem line_bounds_of_assemble (h : assemble text = .error e) :
    1 ≤ e.line ∧ e.line ≤ (Text.lines text.toList).length := by
  rcases reports_of_assemble h with hsyntax | ⟨ls, hls, hlayout | hoperand⟩
  · exact hsyntax.line_bounds fun _ _ => SyntaxFault.lt
  · rw [List.Forall₂.length_eq hls]
    exact hlayout.line_bounds fun _ _ => LayoutFault.lt
  · rw [List.Forall₂.length_eq hls]
    exact hoperand.line_bounds fun _ _ => OperandFault.lt

/-- Only layout looks for duplicates. -/
theorem definedOn_of_assemble (h : assemble text = .error e)
    (hcause : e.cause = .duplicateLabel name first) :
    1 ≤ first ∧ first < e.line ∧ DefinedOn (Text.lines text.toList) first name ∧
      DefinedOn (Text.lines text.toList) e.line name := by
  rcases reports_of_assemble h with ⟨n, -, hsyntax, -⟩ |
    ⟨ls, hls, ⟨n, hline, hlayout, -⟩ | ⟨n, -, hoperand, -⟩⟩
  · exact absurd hcause hsyntax.ne_duplicateLabel
  · rw [hcause] at hlayout
    obtain ⟨k, hlt, rfl, hfirst, hn⟩ := hlayout.defines
    rw [hline, definedOn_iff hls, definedOn_iff hls]
    exact ⟨Nat.succ_pos k, Nat.succ_lt_succ hlt, hfirst, hn⟩
  · exact absurd hcause hoperand.ne_duplicateLabel

theorem Error.render_of_line {line : List Char}
    (h : (Text.lines text.toList)[e.line - 1]? = some line) :
    e.render text = e.message ++ "\n  " ++ Text.right 4 e.line.repr ++ " | " ++
      String.ofList (Text.trimEnd line) := by
  simp only [Error.render, h]

/-- Every error of assembly is about a line of the text and is shown with that line. -/
theorem pointsInto_of_assemble (h : assemble text = .error e) : e.PointsInto text := by
  obtain ⟨hpos, hle⟩ := line_bounds_of_assemble h
  have hline := List.getElem?_eq_getElem (l := Text.lines text.toList) (i := e.line - 1) (by omega)
  refine ⟨hpos, hle, fun name first hcause => definedOn_of_assemble h hcause, ?_⟩
  exact ⟨_, _, _, hline, Text.flushRight_right 4 _, Text.trimmedEnd_trimEnd _,
    Error.render_of_line hline⟩

/-- The second definition is at fault, and its message names the line of the first. -/
theorem pointsInto_of_second_top :
    assemble "top: NOP\n top: NOP \n" = .error { cause := .duplicateLabel "top" 1, line := 2 } ∧
      Error.PointsInto { cause := .duplicateLabel "top" 1, line := 2 }
        "top: NOP\n top: NOP \n" := by
  have h : (·.listing) <$> assemble "top: NOP\n top: NOP \n" =
      .error { cause := .duplicateLabel "top" 1, line := 2 } := by decide +kernel
  exact ⟨map_eq_error_iff.1 h, pointsInto_of_assemble (map_eq_error_iff.1 h)⟩

example : Error.render { cause := .duplicateLabel "top" 1, line := 2 } "top: NOP\n top: NOP \n" =
    "line 2: duplicate label 'top' (first defined at line 1)\n     2 |  top: NOP" := by
  decide +kernel

end Source

end WordMachine
