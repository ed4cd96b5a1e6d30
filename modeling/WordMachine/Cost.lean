/-! Cycle costs. -/
namespace WordMachine

/-- The kinds of work that have a fixed cost. -/
inductive Cost
  | halt | nop | clearCarry | transfer | loadImmediate | alu
  | memoryLoad | memoryStore | memoryCompare | mul | mulMemory
  | consoleIn | consoleOut | branchNotTaken | branchTaken | jump
  deriving DecidableEq, Repr

namespace Cost

def all : List Cost :=
  [halt, nop, clearCarry, transfer, loadImmediate, alu,
   memoryLoad, memoryStore, memoryCompare, mul, mulMemory,
   consoleIn, consoleOut, branchNotTaken, branchTaken, jump]

def cycles : Cost → UInt16
  | halt => 7
  | clearCarry => 1
  | nop | transfer | loadImmediate | alu | consoleIn | branchNotTaken => 2
  | branchTaken | jump => 3
  | memoryLoad | memoryStore | memoryCompare | mul | consoleOut => 4
  | mulMemory => 6

theorem mem_all (k : Cost) : k ∈ all := by cases k <;> decide

end Cost

end WordMachine
