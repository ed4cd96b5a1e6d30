import WordMachine.Disassembly
import WordMachine.Wire.Trace

/-! Values that are read back from JSON. A reader wants every member, each in its range, and
ignores members it does not know. -/
namespace WordMachine.Wire

def registers (r : Registers) : Json :=
  .obj
    [("a", .word r.a), ("x", .word r.x), ("y", .word r.y), ("pc", .word r.pc),
     ("sp", .byte r.sp), ("p", .byte r.status.toByte), ("cycles", .nat r.cycles.toNat)]

/-- The status byte is taken as it is, its spare bit included. -/
def registers? (j : Json) : Option Registers := do
  let a ← j.get? "a" Json.word?
  let x ← j.get? "x" Json.word?
  let y ← j.get? "y" Json.word?
  let pc ← j.get? "pc" Json.word?
  let sp ← j.get? "sp" Json.byte?
  let p ← j.get? "p" Json.byte?
  let cycles ← j.get? "cycles" Json.count?
  return { a, x, y, pc, sp, status := .ofByte p, cycles := UInt64.ofNat cycles }

def fault : Fault → Json
  | .invalidOpcode opcode pc =>
    .obj [("InvalidOpcode", .obj [("opcode", .byte opcode), ("pc", .word pc)])]
  | .addressOutOfRange address limit =>
    .obj [("AddressOutOfRange", .obj [("address", .word address), ("limit", .nat limit)])]
  | .truncatedInstruction pc => .obj [("TruncatedInstruction", .obj [("pc", .word pc)])]

def fault? (j : Json) : Option Fault := do
  match ← j.choice? with
  | ("InvalidOpcode", payload) =>
    return .invalidOpcode (← payload.get? "opcode" Json.byte?) (← payload.get? "pc" Json.word?)
  | ("AddressOutOfRange", payload) =>
    return .addressOutOfRange (← payload.get? "address" Json.word?)
      (← payload.get? "limit" Json.count?)
  | ("TruncatedInstruction", payload) =>
    return .truncatedInstruction (← payload.get? "pc" Json.word?)
  | _ => none

def haltReason : HaltReason → Json
  | .brk => .str "Break"
  | .programEnd => .str "ProgramEnd"
  | .fault cause => .obj [("Fault", fault cause)]

def haltReason? (j : Json) : Option HaltReason := do
  match ← j.choice? with
  | ("Break", .null) => return .brk
  | ("ProgramEnd", .null) => return .programEnd
  | ("Fault", payload) => (fault? payload).map .fault
  | _ => none

def phase : Phase → Json
  | .running => .str "Running"
  | .halted reason => .obj [("Halted", haltReason reason)]

def phase? (j : Json) : Option Phase := do
  match ← j.choice? with
  | ("Running", .null) => return .running
  | ("Halted", payload) => (haltReason? payload).map .halted
  | _ => none

def output? (j : Json) : Option Output := do
  return { value := ← j.get? "value" Json.word?, address := ← j.get? "address" Json.word? }

def bytes? (j : Json) : Option (List UInt8) := do (← j.arr?).mapM Json.byte?

def program? (j : Json) : Option Program := (bytes? j).map .ofList

def row (r : Disassembly.Row) : Json :=
  .obj
    [("addr_start", .word r.address), ("bytes", .arr (r.bytes.map .byte)),
     ("mnemonic", .str r.mnemonic), ("operands", .str r.operands), ("is_illegal", .bool r.illegal)]

def row? (j : Json) : Option Disassembly.Row := do
  return {
    address := ← j.get? "addr_start" Json.word?
    bytes := ← j.get? "bytes" bytes?
    mnemonic := ← j.get? "mnemonic" Json.str?
    operands := ← j.get? "operands" Json.str?
    illegal := ← j.get? "is_illegal" Json.bool? }

def modeName : AddressMode → String
  | .implied => "Implied"
  | .immediate => "Immediate"
  | .memory => "Memory"
  | .relative => "Relative"

/-- An opcode goes by its mnemonic, of which the first letter alone is a capital. -/
def opcodeName (op : Opcode) : String := op.mnemonic.toLower.capitalize

/-- The value of a list that goes by this name. -/
def named? {α : Type} (name : α → String) (all : List α) (j : Json) : Option α := do
  let (wanted, payload) ← j.choice?
  if payload.isNull then all.find? fun a => name a == wanted else none

def mode? : Json → Option AddressMode :=
  named? modeName [.implied, .immediate, .memory, .relative]

def opcode? : Json → Option Opcode := named? opcodeName Opcode.all

end WordMachine.Wire
