import WordMachine.Status

/-! The register file, which is also the snapshot that a trace keeps of it. -/
namespace WordMachine

inductive Register
  | a | x | y
  deriving DecidableEq, Repr

structure Registers where
  a : UInt16 := 0
  x : UInt16 := 0
  y : UInt16 := 0
  pc : UInt16 := 0
  sp : UInt8 := 0
  status : Status := {}
  cycles : UInt64 := 0
  deriving DecidableEq, Repr, Inhabited

namespace Registers

variable (r : Registers)

def get : Register → UInt16
  | .a => r.a
  | .x => r.x
  | .y => r.y

def set (reg : Register) (value : UInt16) : Registers :=
  match reg with
  | .a => { r with a := value }
  | .x => { r with x := value }
  | .y => { r with y := value }

/-- The cycle counter stays at its largest value once it is there. -/
def addCycles (n : UInt16) : Registers :=
  { r with cycles := UInt64.ofNat (min (r.cycles.toNat + n.toNat) (UInt64.size - 1)) }

end Registers

end WordMachine
