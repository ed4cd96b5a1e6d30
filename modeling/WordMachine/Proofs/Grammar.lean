import WordMachine.Proofs.Mnemonics
import WordMachine.Proofs.Numerals
import WordMachine.Source.Line

/-! The grammar of a line of source text, and which check a line outside it fails first. -/
namespace WordMachine.Source

open Text

variable {cs before rest name word body : List Char} {words : List (List Char)} {c : Char}
  {a : Argument} {s : Statement} {label? : Option String} {body? : Option Statement} {line : Line}
  {cause : Cause}

/-! ### Names and operands -/

def IsNameStart (c : Char) : Prop := ('A' ≤ c ∧ c ≤ 'Z') ∨ ('a' ≤ c ∧ c ≤ 'z') ∨ c = '_'

def IsNameRest (c : Char) : Prop := IsNameStart c ∨ ('0' ≤ c ∧ c ≤ '9')

inductive IsName : List Char → Prop
  | intro {c : Char} {cs : List Char} (hstart : IsNameStart c) (hrest : ∀ c ∈ cs, IsNameRest c) :
      IsName (c :: cs)

/-- What commits an operand to being a number. -/
def StartsNumber (word : List Char) : Prop :=
  ∃ c ∈ word.head?, ('0' ≤ c ∧ c ≤ '9') ∨ c = '$' ∨ c = '%'

/-- The word writes the argument: a number by its literal or a label by its name. -/
inductive IsOperand : List Char → Argument → Prop
  | number {word : List Char} {value : UInt16} (hstart : StartsNumber word)
      (hvalue : Numeral.parse? word = some value) : IsOperand word (.number value)
  | label {name : List Char} (hname : IsName name) : IsOperand name (.label (String.ofList name))

/-! ### Lines -/

/-- The longest text before a comment: `#` and `;` begin one. -/
structure IsCode (text body : List Char) : Prop where
  start : body <+: text
  clear : '#' ∉ body ∧ ';' ∉ body
  longest : ∀ cs, cs <+: text → '#' ∉ cs ∧ ';' ∉ cs → cs.length ≤ body.length

/-- A name and a colon, or nothing. -/
inductive LabelField : List Char → Option String → Prop
  | absent : LabelField [] none
  | present {name w : List Char} (hname : IsName name) (hw : Blanks w) :
      LabelField (name ++ w ++ [':']) (some (String.ofList name))

/-- A mnemonic, with the operand that its opcode takes, or nothing. -/
inductive StatementField : List Char → Option Statement → Prop
  | absent : StatementField [] none
  | implied {name : List Char} {op : Opcode} (hname : op.SpelledAs name) (hmode : op.mode = .implied) :
      StatementField name (some { opcode := op, argument? := none })
  | operand {name gap word : List Char} {op : Opcode} {a : Argument} (hname : op.SpelledAs name)
      (hmode : op.mode ≠ .implied) (hgap : Blanks gap) (hne : gap ≠ []) (hword : IsWord word)
      (ha : IsOperand word a) :
      StatementField (name ++ gap ++ word) (some { opcode := op, argument? := some a })

def Line.ofFields : Option String → Option Statement → Line
  | none, none => .blank
  | some name, none => .label name
  | label?, some body => .statement label? body

/-- The text is a label and a statement with blanks around them; either may be absent. -/
inductive Conforms : List Char → Line → Prop
  | intro {w₁ label w₂ statement w₃ : List Char} {label? : Option String} {body? : Option Statement}
      (hw₁ : Blanks w₁) (hlabel : LabelField label label?) (hw₂ : Blanks w₂)
      (hstatement : StatementField statement body?) (hw₃ : Blanks w₃) :
      Conforms (w₁ ++ label ++ w₂ ++ statement ++ w₃) (.ofFields label? body?)

/-! ### Words of a line -/

/-- The words after the label, if there is one. A colon stands at the end of a label only. -/
inductive Follows : List Char → Option String → List (List Char) → Prop
  | bare {body : List Char} {words : List (List Char)} (hcolon : ':' ∉ body)
      (hwords : Spaced body words) : Follows body none words
  | labelled {before name rest : List Char} {words : List (List Char)} (hcolon : ':' ∉ before)
      (htrim : Trimmed before name) (hname : IsName name) (hwords : Spaced rest words) :
      Follows (before ++ ':' :: rest) (some (String.ofList name)) words

/-- The words make up the statement, or there are none. -/
inductive Statement.Formed : List (List Char) → Option Statement → Prop
  | absent : Formed [] none
  | implied {name : List Char} {op : Opcode} (hname : op.SpelledAs name)
      (hmode : op.mode = .implied) : Formed [name] (some { opcode := op, argument? := none })
  | operand {name word : List Char} {op : Opcode} {a : Argument} (hname : op.SpelledAs name)
      (hmode : op.mode ≠ .implied) (ha : IsOperand word a) :
      Formed [name, word] (some { opcode := op, argument? := some a })

/-- The words are no statement. The checks are those of the mnemonic, of the number of operands and
of the operand, and a case is reached when the checks before it pass. -/
inductive Statement.Refused : List (List Char) → Cause → Prop
  | opcode {name : List Char} {operands : List (List Char)}
      (hname : ∀ op : Opcode, ¬ op.SpelledAs name) :
      Refused (name :: operands) (.unknownOpcode (String.ofList name))
  | unexpected {name word : List Char} {operands : List (List Char)} {op : Opcode}
      (hname : op.SpelledAs name) (hmode : op.mode = .implied) :
      Refused (name :: word :: operands) (.unexpectedOperand op)
  | missing {name : List Char} {op : Opcode} (hname : op.SpelledAs name)
      (hmode : op.mode ≠ .implied) : Refused [name] (.missingOperand op)
  | several {name first second : List Char} {operands : List (List Char)} {op : Opcode}
      (hname : op.SpelledAs name) (hmode : op.mode ≠ .implied) :
      Refused (name :: first :: second :: operands)
        (.malformedOperand (String.ofList ([' '].intercalate (first :: second :: operands))))
  | operand {name word : List Char} {op : Opcode} (hname : op.SpelledAs name)
      (hmode : op.mode ≠ .implied) (hword : ∀ a, ¬ IsOperand word a) :
      Refused [name, word] (.malformedOperand (String.ofList word))

/-- The text is refused: its first colon ends no name, or else what follows is no statement. -/
inductive Refused : List Char → Cause → Prop
  | label {before name rest : List Char} (hcolon : ':' ∉ before) (htrim : Trimmed before name)
      (hname : ¬ IsName name) :
      Refused (before ++ ':' :: rest) (.invalidLabel (String.ofList name))
  | statement {body : List Char} {label? : Option String} {words : List (List Char)} {cause : Cause}
      (hfollows : Follows body label? words) (hwords : Statement.Refused words cause) :
      Refused body cause

/-! ### Characters of the fields -/

theorem isLabelStart_iff : isLabelStart c = true ↔ IsNameStart c := by
  delta isLabelStart IsNameStart Char.isAlpha Char.isUpper Char.isLower
  simp [Char.le_def, or_assoc]

theorem isLabelRest_iff : isLabelRest c = true ↔ IsNameRest c := by
  rw [IsNameRest, ← isLabelStart_iff]
  simp [isLabelRest, isLabelStart, Char.isAlphanum, Char.isDigit, Char.le_def, or_right_comm]

theorem isLabel_iff : isLabel name = true ↔ IsName name := by
  cases name with
  | nil =>
    constructor
    · nofun
    · nofun
  | cons c cs =>
    simp only [isLabel, Bool.and_eq_true, List.all_eq_true, isLabelStart_iff, isLabelRest_iff]
    constructor
    · rintro ⟨hc, hcs⟩
      exact .intro hc hcs
    · rintro ⟨hc, hcs⟩
      exact ⟨hc, hcs⟩

theorem IsName.isLabelRest (h : IsName name) (hc : c ∈ name) : isLabelRest c = true := by
  obtain ⟨hstart, hrest⟩ := h
  rw [isLabelRest_iff]
  rcases List.mem_cons.1 hc with rfl | hc
  · exact .inl hstart
  · exact hrest c hc

theorem IsName.isWord (h : IsName name) : IsWord name := by
  refine ⟨?_, fun c hc => ?_⟩
  · rintro rfl
    cases h
  · have hrest := h.isLabelRest hc
    simp only [Source.isLabelRest, Bool.or_eq_true, beq_iff_eq] at hrest
    rcases hrest with halnum | rfl
    · exact isBlank_of_isAlphanum halnum
    · rfl

theorem IsName.no_colon (h : IsName name) : ':' ∉ name := by
  intro hc
  have hcolon := h.isLabelRest hc
  revert hcolon
  decide

/-- The mark of a radix is no colon, and no digit is one. -/
theorem no_colon_of_parse? {value : UInt16} (h : Numeral.parse? word = some value) :
    ':' ∉ word := by
  intro hc
  have hsplit : ':' ∈ (Numeral.split word).2 := by
    unfold Numeral.split
    split <;> simp_all
  have hdigits := Numeral.isLiteral_iff.1 (Numeral.parse?_eq_some_iff.1 h)
  obtain ⟨d, hd, -⟩ := hdigits.isDigit hsplit
  simp [Digits.isDigit_iff] at hd

theorem IsOperand.no_colon (h : IsOperand word a) : ':' ∉ word := by
  cases h with
  | number hstart hvalue => exact no_colon_of_parse? hvalue
  | label hname => exact hname.no_colon

theorem StatementField.no_colon (h : StatementField cs body?) : ':' ∉ cs := by
  cases h with
  | absent => exact List.not_mem_nil
  | implied hname => exact hname.no_colon
  | operand hname hmode hgap hne hword ha =>
    simp only [List.mem_append, not_or]
    exact ⟨⟨hname.no_colon, hgap.not_mem rfl⟩, ha.no_colon⟩

/-! ### Fields and words -/

/-- A statement and the blanks around it are made of the words of the statement. -/
theorem StatementField.spaced {w w' : List Char} (h : StatementField cs body?) (hw : Blanks w)
    (hw' : Blanks w') : ∃ words, Spaced (w ++ cs ++ w') words ∧ Statement.Formed words body? := by
  cases h with
  | absent =>
    rw [List.append_nil]
    exact ⟨[], .nil (hw.append hw'), .absent⟩
  | implied hname hmode =>
    exact ⟨_, spaced_singleton_iff.2 ⟨hname.isWord, w, w', hw, hw', rfl⟩, .implied hname hmode⟩
  | operand hname hmode hgap hne hword ha =>
    refine ⟨_, spaced_pair_iff.2 ⟨hname.isWord, hword, w, _, w', hw, hgap, hne, hw', rfl⟩, ?_⟩
    exact .operand hname hmode ha

theorem exists_statementField (hwords : Spaced rest words) (h : Statement.Formed words body?) :
    ∃ w cs w', Blanks w ∧ StatementField cs body? ∧ Blanks w' ∧ rest = w ++ cs ++ w' := by
  cases h with
  | absent =>
    have hblanks := spaced_nil_iff.1 hwords
    exact ⟨rest, [], [], hblanks, .absent, blanks_nil, by simp⟩
  | implied hname hmode =>
    obtain ⟨-, w, w', hw, hw', rfl⟩ := spaced_singleton_iff.1 hwords
    exact ⟨w, _, w', hw, .implied hname hmode, hw', rfl⟩
  | operand hname hmode ha =>
    obtain ⟨-, hword, w, gap, w', hw, hgap, hne, hw', rfl⟩ := spaced_pair_iff.1 hwords
    exact ⟨w, _, w', hw, .operand hname hmode hgap hne hword ha, hw', rfl⟩

theorem trimmed_name {w w' : List Char} (h : IsName name) (hw : Blanks w) (hw' : Blanks w') :
    Trimmed (w ++ name ++ w') name :=
  .intro hw hw' (fun c hc => h.isWord.clear c (List.mem_of_mem_head? hc))
    fun c hc => h.isWord.clear c (List.mem_of_mem_getLast? hc)

/-- A text is in the grammar when its words are: those of a statement, after a label or without. -/
theorem conforms_iff :
    Conforms body line ↔ ∃ label? words body?, Follows body label? words ∧
      Statement.Formed words body? ∧ line = .ofFields label? body? := by
  constructor
  · rintro ⟨hw₁, hlabel, hw₂, hstatement, hw₃⟩
    rename_i w₁ label w₂ statement w₃ label? body?
    cases hlabel with
    | absent =>
      have hcolon : ':' ∉ w₁ ++ [] ++ w₂ ++ statement ++ w₃ := by
        simp [hw₁.not_mem, hw₂.not_mem, hw₃.not_mem, hstatement.no_colon, isBlank]
      obtain ⟨words, hwords, hformed⟩ := hstatement.spaced (hw₁.append hw₂) hw₃
      rw [List.append_nil] at hcolon ⊢
      exact ⟨none, words, body?, .bare hcolon hwords, hformed, rfl⟩
    | @present name w hname hw =>
      have hcolon : ':' ∉ w₁ ++ name ++ w := by
        simp [hw₁.not_mem, hname.no_colon, hw.not_mem, isBlank]
      obtain ⟨words, hwords, hformed⟩ := hstatement.spaced hw₂ hw₃
      have hfollows := Follows.labelled hcolon (trimmed_name hname hw₁ hw) hname hwords
      refine ⟨_, words, body?, ?_, hformed, rfl⟩
      simpa using hfollows
  · rintro ⟨label?, words, body?, hfollows, hformed, rfl⟩
    cases hfollows with
    | bare hcolon hwords =>
      obtain ⟨w, cs, w', hw, hstatement, hw', rfl⟩ := exists_statementField hwords hformed
      exact .intro blanks_nil .absent hw hstatement hw'
    | labelled hcolon htrim hname hwords =>
      obtain ⟨w, cs, w', hw, hstatement, hw', rfl⟩ := exists_statementField hwords hformed
      obtain ⟨hstart, hend, -, -⟩ := htrim
      have hconforms := Conforms.intro hstart (.present hname hend) hw hstatement hw'
      simpa using hconforms

/-! ### In the grammar or refused -/

theorem formed_or_refused (words : List (List Char)) :
    (∃ body?, Statement.Formed words body?) ∨ ∃ cause, Statement.Refused words cause := by
  cases words with
  | nil => exact .inl ⟨none, .absent⟩
  | cons name operands =>
    by_cases hspelled : ∃ op : Opcode, op.SpelledAs name
    · obtain ⟨op, hname⟩ := hspelled
      by_cases hmode : op.mode = .implied
      · cases operands with
        | nil => exact .inl ⟨_, .implied hname hmode⟩
        | cons word operands => exact .inr ⟨_, .unexpected hname hmode⟩
      · match operands with
        | [] => exact .inr ⟨_, .missing hname hmode⟩
        | [word] =>
          by_cases hword : ∃ a, IsOperand word a
          · obtain ⟨a, ha⟩ := hword
            exact .inl ⟨_, .operand hname hmode ha⟩
          · exact .inr ⟨_, .operand hname hmode (not_exists.1 hword)⟩
        | first :: second :: operands => exact .inr ⟨_, .several hname hmode⟩
    · exact .inr ⟨_, .opcode (not_exists.1 hspelled)⟩

/-- The text before the first colon is a name or not; without a colon, all of it is a statement. -/
theorem follows_or_refused (body : List Char) :
    (∃ label? words, Follows body label? words) ∨ ∃ cause, Refused body cause := by
  by_cases hcolon : ':' ∈ body
  · obtain ⟨before, rest, rfl, hbefore⟩ := List.eq_append_cons_of_mem hcolon
    obtain ⟨words, hwords⟩ := exists_spaced rest
    by_cases hname : IsName (trim before)
    · exact .inl ⟨_, words, .labelled hbefore (trimmed_trim before) hname hwords⟩
    · exact .inr ⟨_, .label hbefore (trimmed_trim before) hname⟩
  · obtain ⟨words, hwords⟩ := exists_spaced body
    exact .inl ⟨none, words, .bare hcolon hwords⟩

theorem conforms_or_refused (body : List Char) :
    (∃ line, Conforms body line) ∨ ∃ cause, Refused body cause := by
  rcases follows_or_refused body with ⟨label?, words, hfollows⟩ | hrefused
  · rcases formed_or_refused words with ⟨body?, hformed⟩ | ⟨cause, hrefused⟩
    · exact .inl ⟨_, conforms_iff.2 ⟨label?, words, body?, hfollows, hformed, rfl⟩⟩
    · exact .inr ⟨cause, .statement hfollows hrefused⟩
  · exact .inr hrefused

end WordMachine.Source
