import Mathlib.Algebra.GroupWithZero.Nat
import Mathlib.Order.Monotone.Basic
import WordMachine.Proofs.InstructionTable
import WordMachine.Proofs.StepProtocol

/-! The cycle counter along a run: it holds what the outcomes have charged since the start, as far
as it can count, and every retired instruction is charged the price of the work that it did. -/
namespace WordMachine

variable {p : Program} {s : Session} {i : Instruction} {e : Effect} {n : Nat}

namespace Cost

/-- The price list. -/
def table : List (Cost × UInt16) :=
  [(halt, 7), (nop, 2), (clearCarry, 1), (transfer, 2), (loadImmediate, 2), (alu, 2),
   (memoryLoad, 4), (memoryStore, 4), (memoryCompare, 4), (mul, 4), (mulMemory, 6),
   (consoleIn, 2), (consoleOut, 4), (branchNotTaken, 2), (branchTaken, 3), (jump, 3)]

/-- Every kind of work is on the list. -/
theorem lookup_table (k : Cost) : table.lookup k = some k.cycles := by cases k <;> rfl

theorem cycles_bounds (k : Cost) : 1 ≤ k.cycles.toNat ∧ k.cycles.toNat ≤ 7 := by
  cases k <;> decide

def branch (taken : Bool) : Cost := if taken then branchTaken else branchNotTaken

theorem cycles_branch (taken : Bool) :
    (branch taken).cycles.toNat = if taken then 3 else 2 := by cases taken <;> rfl

end Cost

/-- The work of an opcode. Only that of a branch hangs on the flags. -/
def Opcode.work (op : Opcode) (flags : Status) : Cost :=
  match op with
  | .brk => .halt
  | .nop => .nop
  | .clc => .clearCarry
  | .tax | .xta => .transfer
  | .lda | .ldx | .ldy => .loadImmediate
  | .adc | .sbc | .and | .ora | .eor | .cmp | .cpx => .alu
  | .lsa | .lsx => .memoryLoad
  | .sta | .stx => .memoryStore
  | .cmpc => .memoryCompare
  | .mul => .mul
  | .mulm => .mulMemory
  | .cta => .consoleIn
  | .ott => .consoleOut
  | .jmp => .jump
  | .beq => .branch flags.zero
  | .bne => .branch (!flags.zero)
  | .bcs => .branch flags.carry
  | .bcc => .branch (!flags.carry)
  | .bmi => .branch flags.negative
  | .bpl => .branch (!flags.negative)
  | .bvs => .branch flags.overflow
  | .bvc => .branch (!flags.overflow)

theorem Opcode.cycles_work (op : Opcode) (flags : Status) :
    (op.work flags).cycles.toNat = op.cycles (op.holds flags) := by
  cases op
  case beq | bne | bcs | bcc | bmi | bpl | bvs | bvc => exact Cost.cycles_branch _
  all_goals rfl

/-- What an instruction takes is the price of its work under the flags that it finds. -/
theorem Instruction.cycles_of_effect {r : Registers} {mem : Memory} {input : UInt16}
    (h : i.effect r mem input = .ok e) : e.cycles = (i.opcode.work r.status).cycles := by
  apply UInt16.toNat_inj.1
  rw [(yields_of_effect h).cycles, Opcode.cycles_work]

theorem Effect.cycles_applyRegisters (e : Effect) (r : Registers) :
    (e.applyRegisters r).cycles.toNat = min (2 ^ 64 - 1) (r.cycles.toNat + e.cycles.toNat) := by
  rw [min_comm]
  rcases e with ⟨_ | ⟨_ | _ | _, w⟩⟩ <;> exact Machine.toNat_cycles_addCycles _ _

/-- The cycles that an answer charges for, none for a fault. -/
def Outcome.cycles : Outcome → Nat
  | .retired cycles => cycles.toNat
  | .halted cycles _ => cycles.toNat
  | .faulted _ => 0

theorem HaltReason.cycles_outcome (reason : HaltReason) : reason.outcome.cycles = 0 := by
  cases reason <;> rfl

namespace Session

/-- The cycle counter. -/
def cycles (s : Session) : Nat := s.machine.registers.cycles.toNat

/-- The next step shows the end of an instruction. -/
def Retires (p : Program) (s : Session) : Prop :=
  ∃ pc cycles, Event.retired pc cycles ∈ (s.stepped p).events

/-- The answers to the next `n` steps. -/
def outcomes (p : Program) (s : Session) (n : Nat) : List Outcome :=
  (List.range n).map fun k => (((next p)^[k] s).stepped p).outcome

/-- What the next `n` steps charge for. -/
def charged (p : Program) (s : Session) (n : Nat) : Nat := ((s.outcomes p n).map Outcome.cycles).sum

theorem charged_succ :
    s.charged p (n + 1) = s.charged p n + (((next p)^[n] s).stepped p).outcome.cycles := by
  simp [charged, outcomes, List.range_succ]

theorem cycles_le (s : Session) : s.cycles ≤ 2 ^ 64 - 1 :=
  Nat.le_pred_of_lt s.machine.registers.cycles.toNat_lt

theorem Executes.outcome_cycles (h : s.Executes p i e) :
    (s.stepped p).outcome.cycles = e.cycles.toNat := by
  rcases h.reports.outcome with ho | ⟨reason, ho⟩ <;> rw [ho] <;> rfl

theorem Executes.retires (h : s.Executes p i e) : s.Retires p := by
  obtain ⟨touched, hevents, -⟩ := h.reports.events
  exact ⟨s.machine.registers.pc, e.cycles, by simp [hevents]⟩

theorem cycles_next_of_executes (h : s.Executes p i e) :
    (s.next p).cycles = min (2 ^ 64 - 1) (s.cycles + e.cycles.toNat) := by
  rw [cycles, h.registers_next]
  exact e.cycles_applyRegisters _

/-- A step that executes nothing changes no register and so not the counter either. -/
theorem idle_of_not_executes (h : ∀ i e, ¬ s.Executes p i e) :
    (s.next p).cycles = s.cycles ∧ (s.stepped p).outcome.cycles = 0 ∧ ¬ s.Retires p := by
  refine ⟨by rw [cycles, (stays_of_not_executes h).registers]; rfl, ?_⟩
  by_cases hl : s.Live p
  · rcases executes_or_faults hl with ⟨i, e, he⟩ | ⟨cause, he⟩
    · exact absurd he (h i e)
    · simp [Retires, stepped_of_fault hl he, Outcome.cycles]
  · obtain ⟨reason, -, ho⟩ := outcome_of_not_live hl
    obtain ⟨-, -, -, hevents, -⟩ := stepped_of_not_live hl
    refine ⟨by rw [ho, HaltReason.cycles_outcome], ?_⟩
    simp [Retires, hevents]

theorem Retires.executes (h : s.Retires p) : ∃ i e, s.Executes p i e := by
  by_contra hne
  exact (idle_of_not_executes fun i e he => hne ⟨i, e, he⟩).2.2 h

theorem retires_iff_live : s.Retires p ↔
    s.Live p ∧ ∀ cause, (s.stepped p).outcome ≠ .faulted cause := by
  constructor
  · intro h
    obtain ⟨i, e, he⟩ := h.executes
    refine ⟨he.live, fun cause ho => ?_⟩
    rcases he.reports.outcome with h' | ⟨reason, h'⟩ <;> rw [ho] at h' <;> cases h'
  · rintro ⟨hl, hne⟩
    obtain ⟨i, e, he⟩ := executes_of_not_faulted hl hne
    exact he.retires

/-- The counter takes what the outcome charges for and stops at the largest number it can hold. -/
theorem cycles_next (p : Program) (s : Session) :
    (s.next p).cycles = min (2 ^ 64 - 1) (s.cycles + (s.stepped p).outcome.cycles) := by
  by_cases h : ∃ i e, s.Executes p i e
  · obtain ⟨i, e, he⟩ := h
    rw [he.outcome_cycles, cycles_next_of_executes he]
  · obtain ⟨hcycles, ho, -⟩ := idle_of_not_executes fun i e he => h ⟨i, e, he⟩
    rw [hcycles, ho, Nat.add_zero, Nat.min_eq_right s.cycles_le]

/-- Saturating along the way comes to the same as saturating once, at the end. -/
theorem cycles_iterate (p : Program) (s : Session) (n : Nat) :
    ((next p)^[n] s).cycles = min (2 ^ 64 - 1) (s.cycles + s.charged p n) := by
  induction n with
  | zero => exact (Nat.min_eq_right s.cycles_le).symm
  | succ n ih =>
    rw [Function.iterate_succ_apply', cycles_next, ih, charged_succ]
    omega

/-- The answer to a step that retires an instruction: the price of its work. -/
structure Priced (p : Program) (s : Session) (i : Instruction) (cycles : UInt16) : Prop where
  decode : p.decode s.machine.registers.pc = .ok i
  outcome : (s.stepped p).outcome = .retired cycles ∨
    ∃ reason, (s.stepped p).outcome = .halted cycles reason
  price : Cost.table.lookup (i.opcode.work s.machine.registers.status) = some cycles
  positive : 1 ≤ cycles.toNat
  le_seven : cycles.toNat ≤ 7

theorem Executes.priced (h : s.Executes p i e) : s.Priced p i e.cycles := by
  have hcycles := Instruction.cycles_of_effect h.effect
  obtain ⟨hpos, hle⟩ := (i.opcode.work s.machine.registers.status).cycles_bounds
  rw [← hcycles] at hpos hle
  exact ⟨h.decode, h.reports.outcome, by rw [Cost.lookup_table, hcycles], hpos, hle⟩

theorem cycles_le_next (p : Program) (s : Session) : s.cycles ≤ (s.next p).cycles := by
  rw [cycles_next]
  exact Nat.le_min.2 ⟨s.cycles_le, Nat.le_add_right ..⟩

theorem cycles_lt_next (h : s.Retires p) (hlt : s.cycles < 2 ^ 64 - 1) :
    s.cycles < (s.next p).cycles := by
  obtain ⟨i, e, he⟩ := h.executes
  have hpos := he.priced.positive
  rw [cycles_next, he.outcome_cycles]
  omega

/-- The books of a run. -/
structure Accounts (p : Program) (s : Session) : Prop where
  counter : ∀ n, ((next p)^[n] s).cycles = min (2 ^ 64 - 1) (s.cycles + s.charged p n)
  /-- An instruction retires with every step that neither faults nor finds nothing to begin. -/
  retires_iff : ∀ n, ((next p)^[n] s).Retires p ↔
    ((next p)^[n] s).Live p ∧ ∀ cause, (((next p)^[n] s).stepped p).outcome ≠ .faulted cause
  priced : ∀ n, ((next p)^[n] s).Retires p → ∃ i cycles, ((next p)^[n] s).Priced p i cycles
  idle : ∀ n, ¬ ((next p)^[n] s).Retires p → (((next p)^[n] s).stepped p).outcome.cycles = 0
  monotone : Monotone fun n => ((next p)^[n] s).cycles
  rises : ∀ n, ((next p)^[n] s).Retires p → ((next p)^[n] s).cycles < 2 ^ 64 - 1 →
    ((next p)^[n] s).cycles < ((next p)^[n + 1] s).cycles

/-- Every run keeps its books. -/
theorem accounts_of_run (p : Program) (s : Session) : s.Accounts p where
  counter := cycles_iterate p s
  retires_iff n := retires_iff_live
  priced n h := by
    obtain ⟨i, e, he⟩ := h.executes
    exact ⟨i, e.cycles, he.priced⟩
  idle n h := (idle_of_not_executes fun i e he => h he.retires).2.1
  monotone := by
    apply monotone_nat_of_le_succ
    intro n
    rw [Function.iterate_succ_apply']
    exact cycles_le_next p _
  rises n h hlt := by
    rw [Function.iterate_succ_apply']
    exact cycles_lt_next h hlt

end Session

end WordMachine
