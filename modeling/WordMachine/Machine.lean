import WordMachine.Config
import WordMachine.Registers

/-! The machine: registers, memory, and whether it still runs. -/
namespace WordMachine

inductive HaltReason
  | brk
  | programEnd
  | fault (cause : Fault)
  deriving DecidableEq, Repr

/-- A run that reaches its step bound stops while it is still `running`. -/
inductive Phase
  | running
  | halted (reason : HaltReason)
  deriving DecidableEq, Repr

namespace Phase

def isHalted : Phase → Bool
  | running => false
  | halted _ => true

def fault? : Phase → Option Fault
  | halted (.fault cause) => some cause
  | _ => none

end Phase

structure Machine where
  registers : Registers
  memory : Memory
  phase : Phase
  deriving DecidableEq

namespace Machine

/-- Every register and every cell holds zero. -/
def fresh (config : Config) : Machine where
  registers := {}
  memory := Memory.zeroed config.memoryWords
  phase := .running

def halt (m : Machine) (reason : HaltReason) : Machine := { m with phase := .halted reason }

end Machine

end WordMachine
