import WordMachine.Status
import WordMachine.Word

/-! What an instruction does to the status flags. -/
namespace WordMachine.Status

inductive Update
  | keep
  | zeroNegative (result : UInt16)
  | compare (difference : UInt16) (carry : Bool)
  | arithmetic (result : UInt16) (carry overflow : Bool)
  | clearCarry
  deriving DecidableEq, Repr

/-- Zero and sign of a result word. -/
def describe (s : Status) (result : UInt16) : Status :=
  { s with zero := result == 0, negative := Word.isNegative result }

def Update.apply : Update → Status → Status
  | keep, s => s
  | zeroNegative result, s => s.describe result
  | compare difference carry, s => { s.describe difference with carry }
  | arithmetic result carry overflow, s => { s.describe result with carry, overflow }
  | clearCarry, s => { s with carry := false }

end WordMachine.Status
