import WordMachine.Json.Printer
import WordMachine.Run

/-! Run results as JSON: registers under their names, faults as their messages, and no member for
what is absent. -/
namespace WordMachine.Wire

def flags (s : Status) : Json :=
  .obj
    [("C", .bool s.carry), ("Z", .bool s.zero), ("I", .bool s.interruptDisable),
     ("D", .bool s.decimal), ("B", .bool s.breakMark), ("V", .bool s.overflow),
     ("N", .bool s.negative)]

def snapshot (r : Registers) : Json :=
  .obj
    [("PC", .word r.pc), ("A", .word r.a), ("X", .word r.x), ("Y", .word r.y),
     ("SP", .byte r.sp), ("P", .byte r.status.toByte), ("cycles", .nat r.cycles.toNat),
     ("flags", flags r.status)]

def cell (c : Trace.Cell) : Json := .obj [("address", .word c.address), ("value", .word c.value)]

def output (o : Output) : Json := .obj [("value", .word o.value), ("address", .word o.address)]

def entry (e : Trace.Entry) : Json :=
  .obj <|
    [("step", .nat e.step), ("opcode", .byte e.opcode), ("before", snapshot e.before)] ++
    (e.after?.map fun r => ("after", snapshot r)).toList ++
    (if e.halted then [("halted", .bool true)] else []) ++
    (e.error?.map fun cause => ("error", .str cause.message)).toList ++
    (if e.cells.isEmpty then [] else [("memory_used", .arr (e.cells.map cell))])

def program (p : Program) : Json := .arr (p.bytes.toList.map .byte)

def result (r : RunResult) : Json :=
  .obj
    [("program", program r.program),
     ("trace", .arr (r.trace.map entry)),
     ("halted", .bool r.halted),
     ("error", r.error.elim .null fun cause => .str cause.message),
     ("outputs", .arr (r.outputs.map output)),
     ("final_state", snapshot r.final)]

end WordMachine.Wire
