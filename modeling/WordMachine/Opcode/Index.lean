import WordMachine.Opcode
import Std.Data.TreeMap

/-! The mnemonic index that the assembler consults: canonical mnemonics in upper case. -/
namespace WordMachine.Opcode

def index : Std.TreeMap String Opcode :=
  all.foldl (fun index op => index.insert op.mnemonic op) ∅

/-- The opcode that `name` stands for, whatever the case of its ASCII letters. -/
def resolve? (name : String) : Option Opcode := index[name.toUpper]?

end WordMachine.Opcode
