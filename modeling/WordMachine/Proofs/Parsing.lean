import WordMachine.Proofs.Grammar

/-! Parsing of a line decides its grammar: a line of the grammar is read as what its fields say, and
any other is refused with the first check that it fails. -/
namespace WordMachine.Source

open Text

variable {text body before name word : List Char} {words : List (List Char)} {a : Argument}
  {s : Statement} {op : Opcode} {label? : Option String} {body? : Option Statement} {line : Line}
  {cause : Cause} {e : Error}

/-! ### Operands -/

theorem startsNumber_iff : startsNumber word = true ↔ StartsNumber word := by
  cases word with
  | nil => simp [startsNumber, StartsNumber]
  | cons c cs =>
    simp [startsNumber, StartsNumber, Char.isDigit, Char.le_def, or_assoc]

theorem IsName.not_startsNumber (h : IsName name) : ¬ StartsNumber name := by
  obtain ⟨hstart, -⟩ := h
  rintro ⟨c, hc, ⟨-, hdigit⟩ | rfl | rfl⟩
  · cases hc
    rcases hstart with ⟨hletter, -⟩ | ⟨hletter, -⟩ | rfl
    · exact absurd (Char.le_trans hletter hdigit) (by decide)
    · exact absurd (Char.le_trans hletter hdigit) (by decide)
    · exact absurd hdigit (by decide)
  · cases hc
    exact absurd hstart (by simp [IsNameStart])
  · cases hc
    exact absurd hstart (by simp [IsNameStart])

namespace Argument

theorem parse_of_isOperand (h : IsOperand word a) : Argument.parse word = .ok a := by
  cases h with
  | number hstart hvalue => simp [Argument.parse, startsNumber_iff.2 hstart, hvalue]
  | label hname =>
    have hstart : startsNumber word = false := by
      rw [← Bool.not_eq_true, startsNumber_iff]
      exact hname.not_startsNumber
    simp [Argument.parse, hstart, isLabel_iff.2 hname]

theorem parse_of_not_isOperand (h : ∀ a, ¬ IsOperand word a) :
    Argument.parse word = .error (.malformedOperand (String.ofList word)) := by
  rw [Argument.parse]
  split
  next hstart =>
    split
    next value hvalue => exact absurd (.number (startsNumber_iff.1 hstart) hvalue) (h _)
    next => rfl
  next =>
    rw [if_neg]
    exact fun hname => h _ (.label (isLabel_iff.1 hname))

end Argument

/-! ### Statements -/

namespace Statement

theorem parse_of_implied (hname : op.SpelledAs name) (hmode : op.mode = .implied) :
    Statement.parse (name :: words) = match words with
      | [] => .ok { opcode := op, argument? := none }
      | _ :: _ => .error (.unexpectedOperand op) := by
  simp only [Statement.parse, Opcode.resolve?_eq_some_iff.2 hname, hmode]
  cases words <;> rfl

theorem parse_of_not_implied (hname : op.SpelledAs name) (hmode : op.mode ≠ .implied) :
    Statement.parse (name :: words) = match words with
      | [] => .error (.missingOperand op)
      | [word] => (Argument.parse word).map fun a => { opcode := op, argument? := some a }
      | many => .error (.malformedOperand (String.ofList ([' '].intercalate many))) := by
  simp only [Statement.parse, Opcode.resolve?_eq_some_iff.2 hname]
  split <;> simp_all

theorem parse_of_formed (h : Formed words (some s)) : Statement.parse words = .ok s := by
  cases h with
  | implied hname hmode => rw [parse_of_implied hname hmode]
  | operand hname hmode ha =>
    simp only [parse_of_not_implied hname hmode, Argument.parse_of_isOperand ha]
    rfl

theorem parse_of_refused (h : Refused words cause) : Statement.parse words = .error cause := by
  cases h with
  | opcode hname => simp [Statement.parse, Opcode.resolve?_eq_none_iff.2 hname]
  | unexpected hname hmode => rw [parse_of_implied hname hmode]
  | missing hname hmode => rw [parse_of_not_implied hname hmode]
  | several hname hmode => rw [parse_of_not_implied hname hmode]
  | operand hname hmode hword =>
    simp only [parse_of_not_implied hname hmode, Argument.parse_of_not_isOperand hword]
    rfl

end Statement

/-! ### Lines -/

namespace Line

variable {rest : List Char}

/-- What the words after a label are read as. -/
def ofWords (label? : Option String) : List (List Char) → Except Cause Line
  | [] => .ok (ofFields label? none)
  | name :: operands => (Statement.parse (name :: operands)).map (statement label?)

theorem ofWords_of_formed (h : Statement.Formed words body?) :
    ofWords label? words = .ok (ofFields label? body?) := by
  cases body? with
  | none =>
    cases h
    rfl
  | some s =>
    obtain ⟨name, operands, rfl⟩ : ∃ name operands, words = name :: operands := by
      cases h
      · exact ⟨_, _, rfl⟩
      · exact ⟨_, _, rfl⟩
    rw [ofWords, Statement.parse_of_formed h]
    cases label? <;> rfl

theorem ofWords_of_refused (h : Statement.Refused words cause) :
    ofWords label? words = .error cause := by
  obtain ⟨name, operands, rfl⟩ : ∃ name operands, words = name :: operands :=
    List.exists_cons_of_ne_nil (by rintro rfl; cases h)
  rw [ofWords, Statement.parse_of_refused h]
  rfl

theorem parseBody_trim (label? : Option String) (rest : List Char) :
    parseBody label? (trim rest) = ofWords label? (Text.words rest) := by
  unfold parseBody
  rw [words_trim]
  cases hwords : Text.words rest with
  | nil =>
    rw [trim_eq_nil_iff.2 hwords]
    cases label? <;> rfl
  | cons name operands =>
    have hne : (trim rest).isEmpty = false := by
      rw [List.isEmpty_eq_false_iff]
      intro hnil
      rw [trim_eq_nil_iff.1 hnil] at hwords
      cases hwords
    rw [hne]
    rfl

theorem bne_of_not_mem {mark : Char} (h : mark ∉ text) : ∀ c ∈ text, (c != mark) = true := by
  intro c hc
  rw [bne_iff_ne]
  rintro rfl
  exact h hc

theorem splitLabel?_of_no_colon (h : ':' ∉ text) : splitLabel? text = none := by
  rw [splitLabel?, List.dropWhile_eq_nil_iff.2 (bne_of_not_mem h)]

theorem splitLabel?_append (h : ':' ∉ before) :
    splitLabel? (before ++ ':' :: rest) = some (trim before, rest) := by
  have hbefore := bne_of_not_mem h
  rw [splitLabel?, List.dropWhile_append_of_pos hbefore, List.takeWhile_append_of_pos hbefore]
  simp

theorem splitLabel?_trim (h : ':' ∉ before) :
    splitLabel? (trim (before ++ ':' :: rest)) = some (trim before, trimEnd rest) := by
  have hstart : ':' ∉ trimStart before := fun hc => h ((List.dropWhile_sublist _).subset hc)
  rw [trim_append_cons rfl, splitLabel?_append hstart, trim_trimStart]

theorem parse_of_follows (h : Follows (code text) label? words) :
    parse text = ofWords label? words := by
  rw [parse]
  generalize code text = body at h
  cases h with
  | bare hcolon hwords =>
    have hnone : splitLabel? (trim body) = none :=
      splitLabel?_of_no_colon fun hc => hcolon (mem_of_mem_trim hc)
    simp only [hnone]
    rw [parseBody_trim, words_eq_iff.2 hwords]
  | labelled hcolon htrim hname hwords =>
    simp only [splitLabel?_trim hcolon, trim_eq_iff.2 htrim, isLabel_iff.2 hname, if_true]
    rw [parseBody_trim, words_trimEnd, words_eq_iff.2 hwords]

theorem parse_of_label {rest : List Char} (hcode : code text = before ++ ':' :: rest)
    (hcolon : ':' ∉ before) (htrim : Trimmed before name) (hname : ¬ IsName name) :
    parse text = .error (.invalidLabel (String.ofList name)) := by
  have hlabel : isLabel name = false := by
    rw [← Bool.not_eq_true, isLabel_iff]
    exact hname
  simp [parse, hcode, splitLabel?_trim hcolon, trim_eq_iff.2 htrim, hlabel]

theorem parse_of_conforms (h : Conforms (code text) line) : parse text = .ok line := by
  obtain ⟨label?, words, body?, hfollows, hformed, rfl⟩ := conforms_iff.1 h
  rw [parse_of_follows hfollows, ofWords_of_formed hformed]

theorem parse_of_refused (h : Refused (code text) cause) : parse text = .error cause := by
  generalize hcode : code text = body at h
  cases h with
  | label hcolon htrim hname => exact parse_of_label hcode hcolon htrim hname
  | statement hfollows hwords =>
    rw [parse_of_follows (hcode ▸ hfollows), ofWords_of_refused hwords]

theorem parse_eq_ok_iff : parse text = .ok line ↔ Conforms (code text) line := by
  constructor
  · intro h
    rcases conforms_or_refused (code text) with ⟨line', hline⟩ | ⟨cause, hcause⟩
    · rw [parse_of_conforms hline] at h
      cases h
      exact hline
    · rw [parse_of_refused hcause] at h
      cases h
  · exact parse_of_conforms

theorem parse_eq_error_iff : parse text = .error cause ↔ Refused (code text) cause := by
  constructor
  · intro h
    rcases conforms_or_refused (code text) with ⟨line, hline⟩ | ⟨cause', hcause⟩
    · rw [parse_of_conforms hline] at h
      cases h
    · rw [parse_of_refused hcause] at h
      cases h
      exact hcause
  · exact parse_of_refused

theorem no_comment (hhash : '#' ∉ text) (hsemicolon : ';' ∉ text) :
    ∀ c ∈ text, (c != '#' && c != ';') = true := by
  intro c hc
  rw [Bool.and_eq_true]
  exact ⟨bne_of_not_mem hhash c hc, bne_of_not_mem hsemicolon c hc⟩

theorem isCode_code (text : List Char) : IsCode text (code text) := by
  refine ⟨List.takeWhile_prefix _, ?_, ?_⟩
  · have hclear : ∀ c ∈ code text, (c != '#' && c != ';') = true :=
      fun c hc => List.mem_takeWhile_imp (p := fun c => c != '#' && c != ';') hc
    constructor
    · exact fun hc => absurd (hclear _ hc) (by decide)
    · exact fun hc => absurd (hclear _ hc) (by decide)
  · rintro cs ⟨rest, rfl⟩ ⟨hhash, hsemicolon⟩
    rw [code, List.takeWhile_append_of_pos (no_comment hhash hsemicolon), List.length_append]
    exact Nat.le_add_right _ _

end Line

theorem parseAt_eq_ok_iff {number : Nat} :
    Line.parseAt number text = .ok line ↔ Line.parse text = .ok line := by
  cases h : Line.parse text <;> simp [Line.parseAt, h, Except.mapError]

theorem parseAt_eq_error_iff {number : Nat} :
    Line.parseAt number text = .error e ↔ e.line = number ∧ Line.parse text = .error e.cause := by
  obtain ⟨cause, line⟩ := e
  cases h : Line.parse text <;> simp [Line.parseAt, h, Except.mapError, and_comm, eq_comm]

/-- Parsing accepts the lines of the grammar and no others, reads each as what its fields say, and
refuses any other line with its number and the first check that it fails. -/
theorem parseAt_spec (number : Nat) (text : List Char) :
    ∃ body, IsCode text body ∧
      (∀ line, Line.parseAt number text = .ok line ↔ Conforms body line) ∧
      ∀ e, Line.parseAt number text = .error e ↔ e.line = number ∧ Refused body e.cause := by
  refine ⟨Line.code text, Line.isCode_code text, fun line => ?_, fun e => ?_⟩
  · rw [parseAt_eq_ok_iff, Line.parse_eq_ok_iff]
  · rw [parseAt_eq_error_iff, Line.parse_eq_error_iff]

/-- The first colon ends the label wherever it stands. -/
example : Line.parseAt 1 "LDA a:b".toList =
    .error { cause := .invalidLabel "LDA a", line := 1 } := by decide +kernel

end WordMachine.Source
