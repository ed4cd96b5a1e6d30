import WordMachine.Opcode
import WordMachine.Hex
import WordMachine.Program
import WordMachine.Text.Blank
import WordMachine.Text.Column
import WordMachine.Text.Lines

/-! Errors in source text, each with the line that it is on. -/
namespace WordMachine.Source

inductive Cause
  | unknownOpcode (name : String)
  | duplicateLabel (name : String) (first : Nat)
  | undefinedLabel (name : String)
  | offsetOutOfRange (target : UInt16) (offset : Int)
  | malformedOperand (text : String)
  | missingOperand (opcode : Opcode)
  | unexpectedOperand (opcode : Opcode)
  | invalidLabel (name : String)
  | programTooLarge (size : Nat)
  deriving DecidableEq, Repr

def Cause.message : Cause → String
  | unknownOpcode name => "unknown opcode '" ++ name ++ "'"
  | duplicateLabel name first =>
    "duplicate label '" ++ name ++ "' (first defined at line " ++ first.repr ++ ")"
  | undefinedLabel name => "undefined label '" ++ name ++ "'"
  | offsetOutOfRange target offset =>
    "branch target 0x" ++ Hex.word target ++ " out of range: offset " ++ offset.repr ++
      " not in -128..=127"
  | malformedOperand text => "malformed operand '" ++ text ++ "'"
  | missingOperand opcode => opcode.mnemonic ++ " expects an operand"
  | unexpectedOperand opcode => opcode.mnemonic ++ " takes no operand"
  | invalidLabel name => "invalid label name '" ++ name ++ "'"
  | programTooLarge size =>
    "program too large: " ++ size.repr ++ " bytes exceeds " ++ Program.maxBytes.repr ++
      " byte limit"

/-- Lines count from one. -/
structure Error where
  cause : Cause
  line : Nat
  deriving DecidableEq, Repr

namespace Error

variable (e : Error)

def message : String := "line " ++ e.line.repr ++ ": " ++ e.cause.message

/-- The message and below it the line that it is about, if the text has that line. -/
def render (text : String) : String :=
  match (Text.lines text.toList)[e.line - 1]? with
  | none => e.message
  | some line =>
    e.message ++ "\n  " ++ Text.right 4 e.line.repr ++ " | " ++ String.ofList (Text.trimEnd line)

end Error

end WordMachine.Source
