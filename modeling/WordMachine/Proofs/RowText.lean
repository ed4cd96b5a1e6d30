import Mathlib.Data.List.TakeWhile
import WordMachine.Proofs.Parsing
import WordMachine.Proofs.Sweep
import WordMachine.Proofs.Transcription

/-! Rows as lines of source text: a row of an instruction reads back as that instruction, with its
operand as a number, and a row of any other byte is refused. -/
namespace WordMachine

open Source

namespace Hex

variable {w n : Nat} {c : Char}

theorem digit?_digit : ∀ n < 16, Digits.digit? 16 (digit n) = some n := by decide

theorem isAlphanum_digit : ∀ n < 16, (digit n).isAlphanum = true := by decide

theorem isAlphanum_of_mem_digits (h : c ∈ digits w n) : c.isAlphanum = true := by
  induction w generalizing n with
  | zero => cases h
  | succ w ih =>
    rcases List.mem_append.1 h with h | h
    · exact ih h
    · rw [List.mem_singleton.1 h]
      exact isAlphanum_digit _ (Nat.mod_lt _ (by decide))

/-- Printed digits read back as the number that fits them. -/
theorem value?_digits (w n : Nat) :
    Digits.value? 16 (digits (w + 1) n) = some (n % 16 ^ (w + 1)) := by
  have hfold : ∀ w n, (digits w n).foldlM
      (fun value c => (Digits.digit? 16 c).map (16 * value + ·)) 0 = some (n % 16 ^ w) := by
    intro w
    induction w with
    | zero => simp [digits, Nat.mod_one]
    | succ w ih =>
      intro n
      rw [digits, List.foldlM_append, ih]
      simp [digit?_digit (n % 16) (Nat.mod_lt _ (by decide)), Nat.pow_succ', Nat.mod_mul,
        Nat.add_comm]
  rw [Digits.value?, hfold]
  simp [digits]

end Hex

variable {p : Program} {pc : UInt16} {i : Instruction} {w : UInt16}

theorem Source.Argument.parse_word (w : UInt16) :
    Argument.parse ('0' :: 'x' :: Hex.digits 4 w.toNat) = .ok (.number w) := by
  have hlt : w.toNat < 65536 := w.toNat_lt
  have hvalue : Digits.value? 16 (Hex.digits 4 w.toNat) = some w.toNat :=
    (Hex.value?_digits 3 _).trans (congrArg some (Nat.mod_eq_of_lt hlt))
  simp [Argument.parse, startsNumber, Numeral.parse?, Numeral.split, hvalue, Option.filter, hlt]

namespace Source.Line

variable {text rest : List Char}

theorem code_eq_self (hhash : '#' ∉ text) (hsemicolon : ';' ∉ text) : code text = text :=
  List.takeWhile_eq_self_iff.2 (no_comment hhash hsemicolon)

theorem code_append (hhash : '#' ∉ text) (hsemicolon : ';' ∉ text) :
    code (text ++ ';' :: rest) = text := by
  rw [code, List.takeWhile_append_of_pos (no_comment hhash hsemicolon)]
  simp

/-- A line without a colon is a statement, made of the words before its comment. -/
theorem parse_of_words {body name : List Char} {names : List (List Char)}
    (hcode : Line.code text = body) (hcolon : ':' ∉ body)
    (hwords : Text.words body = name :: names) :
    Line.parse text = (Statement.parse (name :: names)).map (.statement none) := by
  subst hcode
  exact parse_of_follows (.bare hcolon (Text.words_eq_iff.1 hwords))

end Source.Line

namespace Disassembly

variable {row : Row} {rows : List Row} {cause : Fault} {c : Char}

/-- A row without the line feed that ends it. -/
def Row.line (row : Row) : List Char := row.mnemonic.toList ++ ' ' :: row.operands.toList

theorem toList_text (rows : List Row) :
    (text rows).toList = (rows.map Row.line).flatMap (· ++ ['\n']) := by
  simp [text, Row.text, Row.line, String.toList_join, List.flatMap_map]

theorem toList_operandText (i : Instruction) :
    (operandText i).toList = match i.value? with
      | none => []
      | some value => '0' :: 'x' :: Hex.digits 4 value.toNat := by
  cases h : i.operand <;> simp [operandText, Instruction.value?, h, Hex.word]

theorem isAlphanum_of_mem_operandText (h : c ∈ (operandText i).toList) : c.isAlphanum = true := by
  rw [toList_operandText] at h
  cases hvalue : i.value? with
  | none => simp [hvalue] at h
  | some value =>
    simp only [hvalue, List.mem_cons] at h
    rcases h with rfl | rfl | h
    · rfl
    · rfl
    · exact Hex.isAlphanum_of_mem_digits h

theorem isAlphanum_of_mem_remark (h : c ∈ (remark cause).toList) : c.isAlphanum = true := by
  have hall : (remark cause).toList.all Char.isAlphanum = true := by
    cases cause <;> simp [remark]
  exact List.all_eq_true.1 hall c h

theorem mem_line_of_instruction
    (h : c ∈ i.opcode.mnemonic.toList ++ ' ' :: (operandText i).toList) :
    c.isAlphanum = true ∨ c = ' ' := by
  rcases List.mem_append.1 h with h | h
  · exact .inl ((Opcode.spelledAs_mnemonic _).isAlphanum h)
  · rcases List.mem_cons.1 h with rfl | h
    · exact .inr rfl
    · exact .inl (isAlphanum_of_mem_operandText h)

/-- What stands before the comment in the row of a byte that starts no instruction. -/
def byteText (first : UInt8) : List Char :=
  ".byte".toList ++ ' ' :: '0' :: 'x' :: (Hex.digits 2 first.toNat ++ [' '])

theorem mem_byteText {first : UInt8} (h : c ∈ byteText first) :
    c.isAlphanum = true ∨ c ∈ ['.', ' '] := by
  have hword : ∀ c ∈ ".byte".toList, c.isAlphanum = true ∨ c ∈ ['.', ' '] := by simp
  simp only [byteText, List.mem_append, List.mem_cons, List.not_mem_nil, or_false] at h
  rcases h with h | rfl | rfl | rfl | h | rfl
  · exact hword c h
  · exact .inr (by simp)
  · exact .inl rfl
  · exact .inl rfl
  · exact .inl (Hex.isAlphanum_of_mem_digits h)
  · exact .inr (by simp)

/-- The text of a row: an instruction, or a byte and a comment that says what is wrong. -/
theorem line_cases (h : row? p pc = some row) :
    (∃ i, p.decode pc = .ok i ∧
      row.line = i.opcode.mnemonic.toList ++ ' ' :: (operandText i).toList) ∨
    ∃ first cause, p.decode pc = .error cause ∧
      row.line = byteText first ++ ';' :: ' ' :: (remark cause).toList := by
  rcases row?_cases h with ⟨i, hdecode, rfl⟩ | ⟨first, cause, -, herror, rfl⟩
  · exact .inl ⟨i, hdecode, rfl⟩
  · exact .inr ⟨first, cause, herror, by simp [Row.line, byteText, Hex.byte]⟩

theorem mem_line_of_row? (h : row? p pc = some row) (hc : c ∈ row.line) :
    c.isAlphanum = true ∨ c ∈ ['.', ' ', ';'] := by
  rcases line_cases h with ⟨i, -, hline⟩ | ⟨first, cause, -, hline⟩
  · rcases mem_line_of_instruction (hline ▸ hc) with hc | rfl
    · exact .inl hc
    · exact .inr (by simp)
  · rw [hline] at hc
    rcases List.mem_append.1 hc with hc | hc
    · refine (mem_byteText hc).imp_right fun hmark => ?_
      simp only [List.mem_cons] at hmark ⊢
      tauto
    · simp only [List.mem_cons] at hc
      rcases hc with rfl | rfl | hc
      · exact .inr (by simp)
      · exact .inr (by simp)
      · exact .inl (isAlphanum_of_mem_remark hc)

/-- A row has no line feed or carriage return of its own. -/
theorem lines_text (h : ∀ row ∈ rows, ∃ pc, row? p pc = some row) :
    Text.lines (text rows).toList = rows.map Row.line := by
  have hclear : ∀ c, c.isAlphanum = false → c ∉ ['.', ' ', ';'] → ∀ l ∈ rows.map Row.line,
      c ∉ l := by
    intro c hc hmark l hl hmem
    obtain ⟨row, hrow, rfl⟩ := List.mem_map.1 hl
    obtain ⟨pc, hpc⟩ := h row hrow
    rcases mem_line_of_row? hpc hmem with h | h
    · simp [hc] at h
    · exact hmark h
  rw [toList_text, Text.lines_flatMap (hclear _ rfl (by decide)) (hclear _ rfl (by decide))]

theorem words_operandText {value : UInt16} (h : i.value? = some value) :
    Text.words (operandText i).toList = ['0' :: 'x' :: Hex.digits 4 value.toNat] := by
  have hword : (operandText i).toList = '0' :: 'x' :: Hex.digits 4 value.toNat := by
    rw [toList_operandText, h]
  rw [← hword]
  refine Text.words_singleton (by simp [hword]) fun c hc => ?_
  exact Text.isBlank_of_isAlphanum (isAlphanum_of_mem_operandText hc)

/-- The words of a row are those of the statement of its instruction. -/
theorem parse_operandText (h : p.decode pc = .ok i) :
    Statement.parse (i.opcode.mnemonic.toList :: Text.words (operandText i).toList) =
      .ok i.statement := by
  have hmode := Program.value?_eq_none_iff h
  cases hvalue : i.value? with
  | none =>
    rw [Statement.parse_of_implied (Opcode.spelledAs_mnemonic _) (hmode.1 hvalue)]
    simp [toList_operandText, Text.words_nil, Instruction.statement, hvalue]
  | some value =>
    have hne : i.opcode.mode ≠ .implied := fun hm => by simp [hmode.2 hm] at hvalue
    rw [words_operandText hvalue, Statement.parse_of_not_implied (Opcode.spelledAs_mnemonic _) hne]
    simp [Argument.parse_word, Instruction.statement, hvalue, Except.map]

section Parsing

variable (hrow : row? p pc = some row)
include hrow

/-- The row of an instruction reads back as its statement. -/
theorem parse_line_of_decode (h : p.decode pc = .ok i) :
    Line.parse row.line = .ok (.statement none i.statement) := by
  rcases line_cases hrow with ⟨i', hdecode, hline⟩ | ⟨first, cause, herror, hline⟩
  · rw [h] at hdecode
    cases hdecode
    have hclear : ∀ c, c.isAlphanum = false → c ≠ ' ' → c ∉ row.line := by
      intro c hc hblank hmem
      rcases mem_line_of_instruction (hline ▸ hmem) with h | h
      · simp [hc] at h
      · exact hblank h
    have hwords : Text.words row.line =
        i.opcode.mnemonic.toList :: Text.words (operandText i).toList := by
      have hword := (Opcode.spelledAs_mnemonic i.opcode).isWord
      rw [hline]
      exact Text.words_append hword.nonempty hword.clear rfl
    have hcode := Line.code_eq_self (hclear '#' rfl (by decide)) (hclear ';' rfl (by decide))
    rw [Line.parse_of_words hcode (hclear ':' rfl (by decide)) hwords, parse_operandText h]
    rfl
  · simp [h] at herror

/-- The marker of a byte that starts no instruction is no mnemonic. -/
theorem parse_line_of_error {cause : Fault} (h : p.decode pc = .error cause) :
    Line.parse row.line = .error (.unknownOpcode ".byte") := by
  rcases line_cases hrow with ⟨i, hdecode, hline⟩ | ⟨first, cause, herror, hline⟩
  · simp [h] at hdecode
  · have hclear : ∀ c, c.isAlphanum = false → c ∉ ['.', ' '] → c ∉ byteText first := by
      intro c hc hmark hmem
      rcases mem_byteText hmem with h | h
      · simp [hc] at h
      · exact hmark h
    have hcode : Line.code row.line = byteText first := by
      rw [hline, Line.code_append (hclear '#' rfl (by decide)) (hclear ';' rfl (by decide))]
    have hwords : Text.words (byteText first) = ".byte".toList :: Text.words
        ('0' :: 'x' :: (Hex.digits 2 first.toNat ++ [' '])) :=
      Text.words_append (by decide) (by simp [Text.isBlank]) rfl
    have hresolve : Opcode.resolve? ".byte" = none := by decide +kernel
    rw [Line.parse_of_words hcode (hclear ':' rfl (by decide)) hwords]
    simp [Statement.parse, hresolve, Except.map]

end Parsing

end Disassembly

end WordMachine
