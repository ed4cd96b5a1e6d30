import WordMachine.Effect

/-! One step of the machine and what can be seen of it. -/
namespace WordMachine

inductive Outcome
  | retired (cycles : UInt16)
  | halted (cycles : UInt16) (reason : HaltReason)
  | faulted (cause : Fault)
  deriving DecidableEq, Repr

/-- A faulting step shows its start and its fault, and nothing of what it would have done. -/
inductive Event
  | started (pc : UInt16) (opcode : UInt8)
  | touched (address value : UInt16) (isWrite : Bool)
  | retired (pc cycles : UInt16)
  | faulted (cause : Fault) (pc : UInt16)
  deriving DecidableEq, Repr

def HaltReason.outcome : HaltReason → Outcome
  | .fault cause => .faulted cause
  | reason => .halted 0 reason

/-- A machine and a console after a step. -/
structure Stepped where
  machine : Machine
  console : Console
  outcome : Outcome
  events : List Event

namespace Machine

/-- The effect of the instruction at the program counter, checked so that it can be applied. -/
def plan (p : Program) (m : Machine) (c : Console) : Except Fault (Effect × Console) := do
  let i ← p.decode m.registers.pc
  let planned ← i.execute m c
  planned.1.check m.memory
  return planned

/-- The cell an effect touched, with its value now. -/
def touchEvents (m : Machine) (e : Effect) : List Event :=
  match e.touched? with
  | none => []
  | some address =>
    match m.memory.read address with
    | .ok value => [.touched address value e.memoryWrite.isSome]
    | .error _ => []

/-- Why a machine that has just retired an instruction stops, if it does. -/
def stop? (p : Program) (m : Machine) (e : Effect) : Option HaltReason :=
  if e.halts then some .brk
  else if p.contains m.registers.pc then none
  else some .programEnd

def retire (p : Program) (m : Machine) (c : Console) (e : Effect) (pc : UInt16)
    (code : UInt8) : Stepped :=
  let m := e.apply m
  let events := .started pc code :: (m.touchEvents e ++ [.retired pc e.cycles])
  let c := e.applyConsole c
  match m.stop? p e with
  | none => { machine := m, console := c, outcome := .retired e.cycles, events }
  | some reason =>
    { machine := m.halt reason, console := c, outcome := .halted e.cycles reason, events }

/-- A halted machine stays as it is and answers why it halted. -/
def step (p : Program) (m : Machine) (c : Console) : Stepped :=
  match m.phase with
  | .halted reason => { machine := m, console := c, outcome := reason.outcome, events := [] }
  | .running =>
    let pc := m.registers.pc
    match p.byte? pc with
    | none =>
      { machine := m.halt .programEnd
        console := c
        outcome := .halted 0 .programEnd
        events := [] }
    | some code =>
      match m.plan p c with
      | .error cause =>
        { machine := m.halt (.fault cause)
          console := c
          outcome := .faulted cause
          events := [.started pc code, .faulted cause pc] }
      | .ok (e, c) => m.retire p c e pc code

/-- Where `n` steps lead, and the outcome of the last of them. -/
def steps (p : Program) (n : Nat) (m : Machine) (c : Console) (last : Option Outcome) :
    Machine × Console × Option Outcome :=
  match n with
  | 0 => (m, c, last)
  | n + 1 =>
    let s := m.step p c
    steps p n s.machine s.console (some s.outcome)

end Machine

end WordMachine
