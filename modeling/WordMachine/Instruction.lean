import WordMachine.Opcode
import WordMachine.Fault
import WordMachine.Program
import WordMachine.Word

/-! Decoding: the instruction that the bytes at an address encode. -/
namespace WordMachine

inductive Operand
  | none
  | word (value : UInt16)
  | offset (value : Int8)
  deriving DecidableEq, Repr

/-- An instruction and the address it was fetched from. -/
structure Instruction where
  opcode : Opcode
  pc : UInt16
  operand : Operand
  deriving DecidableEq, Repr

namespace Instruction

variable (i : Instruction)

def size : Nat := i.opcode.size

/-- Addresses wrap at sixteen bits. -/
def nextPc : UInt16 := i.pc + UInt16.ofNat i.size

/-- The operand word, or zero. -/
def word : UInt16 :=
  match i.operand with
  | .word value => value
  | .none | .offset _ => 0

/-- The offset of a branch counts from the next instruction. -/
def branchTarget : UInt16 :=
  match i.operand with
  | .offset value => i.nextPc + value.toInt16.toUInt16
  | .none | .word _ => i.nextPc

end Instruction

/-- The operand at `pc + 1` that an opcode of this mode takes, unless the program ends first. -/
def AddressMode.operand? (mode : AddressMode) (p : Program) (pc : UInt16) : Option Operand :=
  match mode with
  | .implied => some .none
  | .immediate | .memory => (Word.read? p.bytes (pc.toNat + 1)).map .word
  | .relative => p.bytes[pc.toNat + 1]?.map fun b => .offset b.toInt8

def Program.decode (p : Program) (pc : UInt16) : Except Fault Instruction :=
  match p.byte? pc with
  | none => .error (.truncatedInstruction pc)
  | some code =>
    match Opcode.ofCode? code with
    | none => .error (.invalidOpcode code pc)
    | some opcode =>
      match opcode.mode.operand? p pc with
      | none => .error (.truncatedInstruction pc)
      | some operand => .ok { opcode, pc, operand }

end WordMachine
