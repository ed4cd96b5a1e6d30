import WordMachine.Hex

/-! Faults: what stops a step without committing any of it. -/
namespace WordMachine

inductive Fault
  | invalidOpcode (opcode : UInt8) (pc : UInt16)
  | addressOutOfRange (address : UInt16) (limit : Nat)
  | truncatedInstruction (pc : UInt16)
  deriving DecidableEq, Repr

namespace Fault

def kind : Fault → String
  | invalidOpcode .. => "InvalidOpcode"
  | addressOutOfRange .. => "AddressOutOfRange"
  | truncatedInstruction .. => "TruncatedInstruction"

def message : Fault → String
  | invalidOpcode opcode pc =>
    "invalid opcode 0x" ++ Hex.byte opcode ++ " at PC 0x" ++ Hex.word pc
  | addressOutOfRange address limit =>
    "memory address " ++ address.toNat.repr ++ " out of range (memory holds " ++ limit.repr ++
      " words)"
  | truncatedInstruction pc =>
    "instruction at PC 0x" ++ Hex.word pc ++ " is truncated by the end of the program"

end Fault

end WordMachine
