import WordMachine.Source.Layout
import WordMachine.Word

/-! The bytes of a statement. -/
namespace WordMachine.Source

def Argument.resolve (symbols : Symbols) : Argument → Except Cause UInt16
  | .number value => .ok value
  | .label name =>
    match symbols[name]? with
    | some symbol => .ok symbol.address
    | none => .error (.undefinedLabel name)

/-- The signed byte that leads from the end of an instruction to `target`, or the distance that
does not fit one. -/
def relativeOffset (address : UInt16) (size : Nat) (target : UInt16) : Except Int Int8 :=
  let offset : Int := target.toNat - (address.toNat + size)
  if -128 ≤ offset ∧ offset ≤ 127 then .ok (Int8.ofInt offset) else .error offset

/-- The bytes after the opcode byte, when the argument has this value. -/
def operandBytes (opcode : Opcode) (address value : UInt16) : Except Cause (List UInt8) :=
  match opcode.mode with
  | .implied => .ok []
  | .immediate | .memory => .ok (Word.bytes value)
  | .relative =>
    match relativeOffset address opcode.size value with
    | .ok offset => .ok [offset.toUInt8]
    | .error offset => .error (.offsetOutOfRange value offset)

/-- The encoding of a statement placed at `address`. -/
def Statement.encode (s : Statement) (symbols : Symbols) (address : UInt16) :
    Except Cause (List UInt8) :=
  match s.argument? with
  | none => .ok [s.opcode.code]
  | some argument => do
    let value ← argument.resolve symbols
    let bytes ← operandBytes s.opcode address value
    return s.opcode.code :: bytes

end WordMachine.Source
