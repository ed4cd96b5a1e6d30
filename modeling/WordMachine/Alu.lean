import WordMachine.Word

/-! Sixteen-bit arithmetic with carry and signed overflow. -/
namespace WordMachine.Alu

structure Result where
  value : UInt16
  carry : Bool
  overflow : Bool
  deriving DecidableEq, Repr

/-- Overflow: the operands agree in sign and the sum does not. -/
def addWithCarry (lhs rhs : UInt16) (carryIn : Bool) : Result :=
  let sum := lhs + rhs
  let value := sum + carryIn.toUInt16
  { value
    carry := sum < lhs || value < sum
    overflow := Word.isNegative ((lhs ^^^ value) &&& (rhs ^^^ value)) }

/-- A clear carry borrows one more, and the carry out is set when nothing was borrowed. Overflow:
the operands differ in sign and the difference does not have the sign of the first. -/
def subWithBorrow (lhs rhs : UInt16) (carryIn : Bool) : Result :=
  let difference := lhs - rhs
  let value := difference - (!carryIn).toUInt16
  { value
    carry := !(lhs < rhs || difference < (!carryIn).toUInt16)
    overflow := Word.isNegative ((lhs ^^^ rhs) &&& (lhs ^^^ value)) }

/-- The difference, and whether nothing was borrowed. -/
def compare (lhs rhs : UInt16) : UInt16 × Bool := (lhs - rhs, !(lhs < rhs))

end WordMachine.Alu
