import WordMachine.Trace

/-! Bounded runs from a fresh machine. -/
namespace WordMachine

/-- A run in progress. -/
structure Progress where
  machine : Machine
  console : Console
  tracer : Trace.Tracer := {}

namespace Progress

def advance (p : Program) (s : Progress) : Progress :=
  let before := s.machine.registers
  let next := s.machine.step p s.console
  { machine := next.machine
    console := next.console
    tracer := (next.events.foldl Trace.Tracer.observe s.tracer).record before next.outcome
      next.machine.registers }

/-- At most `bound` more steps. A program counter outside the program halts the machine even when
no step is left. -/
def proceed (p : Program) : (bound : Nat) → Progress → Progress
  | bound, s =>
    if p.contains s.machine.registers.pc then
      match bound with
      | 0 => s
      | bound + 1 =>
        let s := s.advance p
        if s.machine.phase.isHalted then s else s.proceed p bound
    else { s with machine := s.machine.halt .programEnd }

end Progress

structure RunResult where
  program : Program
  trace : List Trace.Entry
  halted : Bool
  error : Option Fault
  outputs : List Output
  final : Registers

/-- Runs a program until it halts or has taken the most steps allowed. -/
def run (program : Program) (inputs : List UInt16) (config : Config := {}) : RunResult :=
  let s := Progress.proceed program config.maxSteps
    { machine := Machine.fresh config, console := Console.ofInputs inputs }
  { program
    trace := s.tracer.entries.toList
    halted := s.machine.phase.isHalted
    error := s.machine.phase.fault?
    outputs := s.console.outputs.toList
    final := s.machine.registers }

end WordMachine
