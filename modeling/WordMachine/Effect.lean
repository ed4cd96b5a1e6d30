import WordMachine.Alu
import WordMachine.Console
import WordMachine.Cost
import WordMachine.Instruction
import WordMachine.Machine
import WordMachine.Status.Update

/-! Execution in two phases: an instruction is turned into a record of its effects, which changes
nothing, and the record is committed, which cannot fail halfway. -/
namespace WordMachine

structure Effect where
  registerWrite : Option (Register × UInt16) := none
  memoryWrite : Option (UInt16 × UInt16) := none
  memoryRead : Option UInt16 := none
  update : Status.Update := .keep
  nextPc : UInt16
  cycles : UInt16
  output : Option Output := none
  halts : Bool := false
  deriving DecidableEq

namespace Effect

/-- Goes on at `pc` and does nothing else. -/
def goto (pc : UInt16) (cost : Cost) : Effect := { nextPc := pc, cycles := cost.cycles }

def load (e : Effect) (reg : Register) (value : UInt16) : Effect :=
  { e with registerWrite := some (reg, value), update := .zeroNegative value }

def arithmetic (e : Effect) (r : Alu.Result) : Effect :=
  { e with
    registerWrite := some (.a, r.value)
    update := .arithmetic r.value r.carry r.overflow }

def compare (e : Effect) (lhs rhs : UInt16) : Effect :=
  { e with update := .compare (Alu.compare lhs rhs).1 (Alu.compare lhs rhs).2 }

/-- The cell the instruction wrote, or else the one it read. -/
def touched? (e : Effect) : Option UInt16 := (e.memoryWrite.map Prod.fst).or e.memoryRead

end Effect

namespace Opcode

/-- The condition of a branch. -/
def holds (op : Opcode) (s : Status) : Bool :=
  match op with
  | beq => s.zero
  | bne => !s.zero
  | bcs => s.carry
  | bcc => !s.carry
  | bmi => s.negative
  | bpl => !s.negative
  | bvs => s.overflow
  | bvc => !s.overflow
  | _ => false

def readsConsole (op : Opcode) : Bool := op == cta

end Opcode

namespace Instruction

variable (i : Instruction)

def andThen (cost : Cost) : Effect := .goto i.nextPc cost

def branch (s : Status) : Effect :=
  if i.opcode.holds s then .goto i.branchTarget .branchTaken else i.andThen .branchNotTaken

/-- The effect that reads the cell of the operand and continues with its value. -/
def reading (m : Memory) (f : UInt16 → Effect) : Except Fault Effect :=
  (m.read i.word).map f

def store (m : Memory) (value : UInt16) : Except Fault Effect :=
  (Memory.index i.word m.size).map fun _ =>
    { i.andThen .memoryStore with memoryWrite := some (i.word, value) }

/-- What the instruction does when the console would answer `input`. -/
def effect (r : Registers) (m : Memory) (input : UInt16) : Except Fault Effect :=
  match i.opcode with
  | .brk => .ok { i.andThen .halt with halts := true }
  | .nop => .ok (i.andThen .nop)
  | .clc => .ok { i.andThen .clearCarry with update := .clearCarry }
  | .tax => .ok { i.andThen .transfer with registerWrite := some (.x, r.a) }
  | .xta => .ok { i.andThen .transfer with registerWrite := some (.a, r.x) }
  | .cta => .ok ((i.andThen .consoleIn).load .a input)
  | .lda => .ok ((i.andThen .loadImmediate).load .a i.word)
  | .ldx => .ok ((i.andThen .loadImmediate).load .x i.word)
  | .ldy => .ok ((i.andThen .loadImmediate).load .y i.word)
  | .adc => .ok ((i.andThen .alu).arithmetic (Alu.addWithCarry r.a i.word r.status.carry))
  | .sbc => .ok ((i.andThen .alu).arithmetic (Alu.subWithBorrow r.a i.word r.status.carry))
  | .and => .ok ((i.andThen .alu).load .a (r.a &&& i.word))
  | .ora => .ok ((i.andThen .alu).load .a (r.a ||| i.word))
  | .eor => .ok ((i.andThen .alu).load .a (r.a ^^^ i.word))
  | .cmp => .ok ((i.andThen .alu).compare r.a i.word)
  | .cpx => .ok ((i.andThen .alu).compare r.x i.word)
  | .jmp => .ok (.goto i.word .jump)
  | .cmpc => i.reading m fun value =>
      { (i.andThen .memoryCompare).compare r.a value with memoryRead := some i.word }
  | .sta => i.store m r.a
  | .stx => i.store m r.x
  | .lsa => i.reading m fun value =>
      { (i.andThen .memoryLoad).load .a value with memoryRead := some i.word }
  | .lsx => i.reading m fun value =>
      { (i.andThen .memoryLoad).load .x value with memoryRead := some i.word }
  | .ott => i.reading m fun value =>
      { i.andThen .consoleOut with
        memoryRead := some i.word
        output := some { value, address := i.word } }
  | .mul => i.reading m fun value =>
      { (i.andThen .mul).load .a (r.a * value) with memoryRead := some i.word }
  | .mulm => i.reading m fun value =>
      { i.andThen .mulMemory with
        memoryWrite := some (i.word, r.a * value)
        update := .zeroNegative (r.a * value) }
  | .beq | .bne | .bcs | .bcc | .bmi | .bpl | .bvs | .bvc => .ok (i.branch r.status)

/-- Only `CTA` takes an input, and since it cannot fault no input is ever given back. -/
def execute (m : Machine) (c : Console) : Except Fault (Effect × Console) :=
  (i.effect m.registers m.memory c.next).map fun e =>
    (e, if i.opcode.readsConsole then c.advance else c)

end Instruction

namespace Effect

variable (e : Effect)

/-- A recorded write has to name a cell. -/
def check (m : Memory) : Except Fault Unit :=
  match e.memoryWrite with
  | none => .ok ()
  | some (address, _) => (Memory.index address m.size).map fun _ => ()

def applyRegisters (r : Registers) : Registers :=
  let r := match e.registerWrite with
    | none => r
    | some (reg, value) => r.set reg value
  { r with status := e.update.apply r.status, pc := e.nextPc }.addCycles e.cycles

def applyMemory (m : Memory) : Memory :=
  match e.memoryWrite with
  | none => m
  | some (address, value) => m.set address value

def apply (m : Machine) : Machine where
  registers := e.applyRegisters m.registers
  memory := e.applyMemory m.memory
  phase := m.phase

def applyConsole (c : Console) : Console :=
  match e.output with
  | none => c
  | some output => c.write output

/-- All recorded effects take place, or the one fault that a record can have and none of them. -/
def commit (m : Machine) (c : Console) : Except Fault (Machine × Console) := do
  e.check m.memory
  return (e.apply m, e.applyConsole c)

end Effect

end WordMachine
