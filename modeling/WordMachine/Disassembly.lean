import WordMachine.Instruction

/-! Disassembly into lines that assemble again. -/
namespace WordMachine.Disassembly

structure Row where
  address : UInt16
  bytes : List UInt8
  mnemonic : String
  operands : String
  illegal : Bool
  deriving DecidableEq, Repr

/-- The operand as it is written in source text: a branch names the address it leads to. -/
def operandText (i : Instruction) : String :=
  match i.operand with
  | .none => ""
  | .word value => "0x" ++ Hex.word value
  | .offset _ => "0x" ++ Hex.word i.branchTarget

def remark : Fault → String
  | .truncatedInstruction _ => "TRUNCATED"
  | .invalidOpcode .. | .addressOutOfRange .. => "ILLEGAL"

/-- The row at `pc`. A byte that starts no complete instruction is a row of its own. -/
def row? (p : Program) (pc : UInt16) : Option Row :=
  match p.byte? pc with
  | none => none
  | some first =>
    match p.decode pc with
    | .ok i =>
      some
        { address := pc
          bytes := p.slice pc i.size
          mnemonic := i.opcode.mnemonic
          operands := operandText i
          illegal := false }
    | .error cause =>
      some
        { address := pc
          bytes := [first]
          mnemonic := ".byte"
          operands := "0x" ++ Hex.byte first ++ " ; " ++ remark cause
          illegal := true }

theorem bytes_of_row? {p : Program} {pc : UInt16} {row : Row} (h : row? p pc = some row) :
    pc.toNat < p.size ∧ 0 < row.bytes.length := by
  unfold row? at h
  split at h
  · cases h
  · rename_i first hb
    have hpc : pc.toNat < p.size := by
      have := Array.getElem?_eq_some_iff.1 hb
      exact this.1
    refine ⟨hpc, ?_⟩
    split at h <;> cases h
    · rename_i i _
      have := i.opcode.mode.size_pos
      simp only [Program.slice, Program.size, Instruction.size, Opcode.size] at *
      simp
      omega
    · simp

/-- The rows from address `start` on; the sweep ends with the program or with the last address. -/
def rowsFrom (p : Program) (start : Nat) (rows : Array Row) : Array Row :=
  if start < 65536 then
    match _hrow : row? p (UInt16.ofNat start) with
    | none => rows
    | some row => rowsFrom p (start + row.bytes.length) (rows.push row)
  else rows
termination_by 65536 - start
decreasing_by
  have := (bytes_of_row? _hrow).2
  omega

/-- The whole program, front to back. -/
def rows (p : Program) : List Row := (rowsFrom p 0 #[]).toList

def Row.text (row : Row) : String := row.mnemonic ++ " " ++ row.operands ++ "\n"

/-- Source text with a line for each row. -/
def text (rows : List Row) : String := String.join (rows.map Row.text)

end WordMachine.Disassembly
