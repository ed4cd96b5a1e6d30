import WordMachine.Disassembly
import WordMachine.Run
import WordMachine.Source.Assembly
import WordMachine.Text.Column

/-! Text that the commands print: listings, traces, and how they end. -/
namespace WordMachine.Cli

/-- What a command leaves behind: its exit status and what it printed. -/
structure Report where
  code : Nat := 0
  stdout : String := ""
  stderr : String := ""
  deriving DecidableEq, Repr

def listingLine (e : Source.Listed) : String :=
  Hex.word e.address ++ ": " ++ Text.left 9 (Hex.bytes e.bytes) ++ " " ++ e.source ++ " ; line " ++
    e.line.repr ++ "\n"

def listing (a : Source.Assembly) : String := String.join (a.listing.map listingLine)

/-- The bytes at the program counter of an entry and the instruction that they encode. -/
def instructionColumns (p : Program) (pc : UInt16) : String × String :=
  match Disassembly.row? p pc with
  | none => ("", "???")
  | some row =>
    let text := (row.mnemonic ++ " " ++ row.operands).toList
    (Hex.bytes row.bytes, String.ofList (Text.trimEnd text))

def endingColumns : Trace.Ending → String
  | .retired r | .halted r =>
    "  " ++ Hex.word r.a ++ " " ++ Hex.word r.x ++ " " ++ Hex.word r.y ++ " " ++
      Hex.byte r.status.toByte ++ "  " ++ r.cycles.toNat.repr
  | .faulted cause => "  fault: " ++ cause.message

def traceLine (p : Program) (e : Trace.Entry) : String :=
  let (bytes, text) := instructionColumns p e.before.pc
  Text.right 4 e.step.repr ++ "  " ++ Hex.word e.before.pc ++ "  " ++ Text.left 8 bytes ++ "  " ++
    Text.left 20 text ++ endingColumns e.ending

def cellLine (c : Trace.Cell) : String :=
  "      mem[0x" ++ Hex.word c.address ++ "] = 0x" ++ Hex.word c.value ++ "\n"

def traceLines (p : Program) (e : Trace.Entry) : String :=
  traceLine p e ++ "\n" ++ String.join (e.cells.map cellLine)

def outputLine (o : Output) : String :=
  "output: " ++ o.value.toNat.repr ++ " (0x" ++ Hex.word o.value ++ ") from 0x" ++
    Hex.word o.address ++ "\n"

def summaryLine (r : RunResult) : String :=
  "halted: " ++ (if r.halted then "true" else "false") ++ "  steps: " ++ r.trace.length.repr ++
    "  PC=" ++ Hex.word r.final.pc ++ " A=" ++ Hex.word r.final.a ++ " X=" ++ Hex.word r.final.x ++
    " Y=" ++ Hex.word r.final.y ++ " P=" ++ Hex.byte r.final.status.toByte ++ " cycles=" ++
    r.final.cycles.toNat.repr ++ "\n"

def heading : String :=
  "step  pc    bytes     instruction           A    X    Y    P   cycles\n"

def runTable (r : RunResult) : String :=
  heading ++ String.join (r.trace.map (traceLines r.program)) ++
    String.join (r.outputs.map outputLine) ++ summaryLine r

end WordMachine.Cli
