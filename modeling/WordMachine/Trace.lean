import WordMachine.Step

/-! Traces: one entry for each executed step. -/
namespace WordMachine.Trace

/-- A cell that a step touched, with its value after the step. -/
structure Cell where
  address : UInt16
  value : UInt16
  deriving DecidableEq, Repr

/-- A faulting step leaves no registers behind, because it changed none. -/
inductive Ending
  | retired (after : Registers)
  | halted (after : Registers)
  | faulted (cause : Fault)
  deriving DecidableEq, Repr

structure Entry where
  step : Nat
  opcode : UInt8
  before : Registers
  ending : Ending
  cells : List Cell
  deriving DecidableEq

namespace Entry

variable (entry : Entry)

def after? : Option Registers :=
  match entry.ending with
  | .retired after | .halted after => some after
  | .faulted _ => none

def halted : Bool :=
  match entry.ending with
  | .retired _ => false
  | .halted _ | .faulted _ => true

def error? : Option Fault :=
  match entry.ending with
  | .retired _ | .halted _ => none
  | .faulted cause => some cause

end Entry

def Ending.ofOutcome (now : Registers) : Outcome → Ending
  | .retired _ => .retired now
  | .halted .. => .halted now
  | .faulted cause => .faulted cause

/-- Collects events and closes an entry at each `record`. -/
structure Tracer where
  entries : Array Entry := #[]
  opcode : UInt8 := 0
  cells : Array Cell := #[]

namespace Tracer

variable (t : Tracer)

def size : Nat := t.entries.size

/-- A start forgets the cells of a step that was never recorded. -/
def observe : Event → Tracer
  | .started _ opcode => { t with opcode, cells := #[] }
  | .touched address value _ => { t with cells := t.cells.push { address, value } }
  | .retired .. | .faulted .. => t

/-- Closes the step that began in `before` and ended in `now`. -/
def record (before : Registers) (outcome : Outcome) (now : Registers) : Tracer where
  entries := t.entries.push {
    step := t.entries.size
    opcode := t.opcode
    before
    ending := .ofOutcome now outcome
    cells := t.cells.toList }
  opcode := t.opcode
  cells := #[]

end Tracer

end WordMachine.Trace
