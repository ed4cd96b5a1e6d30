/-! The instruction set: thirty-three opcodes, each with a mnemonic, a byte and an address mode. -/
namespace WordMachine

/-- What the bytes after an opcode byte mean. -/
inductive AddressMode
  | implied | immediate | memory | relative
  deriving DecidableEq, Repr

namespace AddressMode

def operandBytes : AddressMode → Nat
  | implied => 0
  | immediate | memory => 2
  | relative => 1

/-- Encoded size, the opcode byte included. -/
def size (mode : AddressMode) : Nat := 1 + mode.operandBytes

theorem size_pos (mode : AddressMode) : 0 < mode.size := by cases mode <;> decide

theorem size_le (mode : AddressMode) : mode.size ≤ 3 := by cases mode <;> decide

end AddressMode

inductive Opcode
  | brk | sta | lsa | stx | lsx | cta | ott | mul | xta | ora | bpl
  | mulm | clc | and | bmi | eor | jmp | bvc | adc | bvs | bcc | ldy
  | ldx | lda | tax | bcs | cmp | cmpc | bne | cpx | sbc | nop | beq
  deriving DecidableEq, Repr

namespace Opcode

/-- Every opcode, by increasing opcode byte. -/
def all : List Opcode :=
  [brk, sta, lsa, stx, lsx, cta, ott, mul, xta, ora, bpl,
   mulm, clc, .and, bmi, eor, jmp, bvc, adc, bvs, bcc, ldy,
   ldx, lda, tax, bcs, cmp, cmpc, bne, cpx, sbc, nop, beq]

def code : Opcode → UInt8
  | brk => 0x00 | sta => 0x01 | lsa => 0x02 | stx => 0x03 | lsx => 0x04 | cta => 0x05
  | ott => 0x06 | mul => 0x07 | xta => 0x08 | ora => 0x09 | bpl => 0x10 | mulm => 0x14
  | clc => 0x18 | .and => 0x29 | bmi => 0x30 | eor => 0x49 | jmp => 0x4C | bvc => 0x50
  | adc => 0x69 | bvs => 0x70 | bcc => 0x90 | ldy => 0xA0 | ldx => 0xA2 | lda => 0xA9
  | tax => 0xAA | bcs => 0xB0 | cmp => 0xC9 | cmpc => 0xCD | bne => 0xD0 | cpx => 0xE0
  | sbc => 0xE9 | nop => 0xEA | beq => 0xF0

def mnemonic : Opcode → String
  | brk => "BRK" | sta => "STA" | lsa => "LSA" | stx => "STX" | lsx => "LSX" | cta => "CTA"
  | ott => "OTT" | mul => "MUL" | xta => "XTA" | ora => "ORA" | bpl => "BPL" | mulm => "MULM"
  | clc => "CLC" | .and => "AND" | bmi => "BMI" | eor => "EOR" | jmp => "JMP" | bvc => "BVC"
  | adc => "ADC" | bvs => "BVS" | bcc => "BCC" | ldy => "LDY" | ldx => "LDX" | lda => "LDA"
  | tax => "TAX" | bcs => "BCS" | cmp => "CMP" | cmpc => "CMPC" | bne => "BNE" | cpx => "CPX"
  | sbc => "SBC" | nop => "NOP" | beq => "BEQ"

def mode : Opcode → AddressMode
  | brk | cta | xta | clc | tax | nop => .implied
  | ora | .and | eor | jmp | adc | ldy | ldx | lda | cmp | cpx | sbc => .immediate
  | sta | lsa | stx | lsx | ott | mul | mulm | cmpc => .memory
  | bpl | bmi | bvc | bvs | bcc | bcs | bne | beq => .relative

def size (op : Opcode) : Nat := op.mode.size

/-- The opcode of a byte; a byte that no opcode has is illegal. -/
def ofCode? (b : UInt8) : Option Opcode := all.find? (·.code == b)

/-- The opcode of a mnemonic in either case of the ASCII letters. -/
def ofMnemonic? (name : String) : Option Opcode :=
  all.find? fun op => op.mnemonic.toLower == name.toLower

theorem mem_all (op : Opcode) : op ∈ all := by cases op <;> decide

theorem code_injective {a b : Opcode} (h : a.code = b.code) : a = b := by
  revert h; cases a <;> cases b <;> decide

theorem ofCode?_code (op : Opcode) : ofCode? op.code = some op := by cases op <;> decide

theorem code_of_ofCode? {b : UInt8} {op : Opcode} (h : ofCode? b = some op) : op.code = b := by
  simpa using List.find?_some h

end Opcode

end WordMachine
