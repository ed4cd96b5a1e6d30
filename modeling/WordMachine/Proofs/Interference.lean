import WordMachine.Proofs.Lockstep

/-! Non-interference: Y, the stack pointer, the cycle counter and the status bits that no branch
tests have no influence on anything else, and no instruction writes the stack pointer or those
bits. -/
namespace WordMachine

open Session

variable {p : Program} {s s' : Session} {m m' : Machine} {r r' : Registers} {mem : Memory}
  {i : Instruction} {e : Effect} {input : UInt16} {n k : Nat}

namespace Status

variable {t t' t'' : Status}

/-- The four flags that instructions set and test are the same in both. -/
structure SameFlags (t t' : Status) : Prop where
  carry : t'.carry = t.carry
  zero : t'.zero = t.zero
  overflow : t'.overflow = t.overflow
  negative : t'.negative = t.negative

/-- Bits 2 to 5 are the same in both. -/
structure SameReserved (t t' : Status) : Prop where
  interruptDisable : t'.interruptDisable = t.interruptDisable
  decimal : t'.decimal = t.decimal
  breakMark : t'.breakMark = t.breakMark
  spare : t'.spare = t.spare

theorem SameReserved.trans (h : t.SameReserved t') (h' : t'.SameReserved t'') :
    t.SameReserved t'' :=
  ⟨h'.interruptDisable.trans h.interruptDisable, h'.decimal.trans h.decimal,
    h'.breakMark.trans h.breakMark, h'.spare.trans h.spare⟩

/-- An update sets a flag to the same value in both, or leaves it as it is in both. -/
theorem sameFlags_apply (h : t.SameFlags t') (u : Update) :
    (u.apply t).SameFlags (u.apply t') := by
  cases u with
  | keep => exact h
  | zeroNegative result => exact ⟨h.carry, rfl, h.overflow, rfl⟩
  | compare difference carry => exact ⟨rfl, rfl, h.overflow, rfl⟩
  | arithmetic result carry overflow => exact ⟨rfl, rfl, rfl, rfl⟩
  | clearCarry => exact ⟨rfl, h.zero, h.overflow, h.negative⟩

theorem sameReserved_apply (t : Status) (u : Update) : t.SameReserved (u.apply t) := by
  cases u <;> exact ⟨rfl, rfl, rfl, rfl⟩

end Status

namespace Registers

/-- All that an instruction reads of the registers is the same in both. -/
structure Alike (r r' : Registers) : Prop where
  a : r'.a = r.a
  x : r'.x = r.x
  pc : r'.pc = r.pc
  flags : r.status.SameFlags r'.status

/-- All that no instruction writes is the same in both. -/
structure SameReserved (r r' : Registers) : Prop where
  sp : r'.sp = r.sp
  status : r.status.SameReserved r'.status

theorem alike_applyRegisters (h : r.Alike r') (e : Effect) :
    (e.applyRegisters r).Alike (e.applyRegisters r') := by
  have hflags := Status.sameFlags_apply h.flags e.update
  unfold Effect.applyRegisters
  cases e.registerWrite with
  | none => exact ⟨h.a, h.x, rfl, hflags⟩
  | some write =>
    obtain ⟨reg, value⟩ := write
    cases reg with
    | a => exact ⟨rfl, h.x, rfl, hflags⟩
    | x => exact ⟨h.a, rfl, rfl, hflags⟩
    | y => exact ⟨h.a, h.x, rfl, hflags⟩

theorem sameReserved_applyRegisters (r : Registers) (e : Effect) :
    r.SameReserved (e.applyRegisters r) := by
  have hstatus := Status.sameReserved_apply r.status e.update
  unfold Effect.applyRegisters
  cases e.registerWrite with
  | none => exact ⟨rfl, hstatus⟩
  | some write =>
    obtain ⟨reg, value⟩ := write
    cases reg <;> exact ⟨rfl, hstatus⟩

end Registers

theorem Opcode.holds_of_sameFlags {t t' : Status} (h : t.SameFlags t') (op : Opcode) :
    op.holds t' = op.holds t := by
  cases op <;> simp only [holds, h.carry, h.zero, h.overflow, h.negative]

theorem Instruction.effect_of_alike (h : r.Alike r') :
    i.effect r' mem input = i.effect r mem input := by
  cases hop : i.opcode
  case beq | bne | bcs | bcc | bmi | bpl | bvs | bvc =>
    simp only [effect, hop, branch, Opcode.holds_of_sameFlags h.flags]
  all_goals simp only [effect, hop, h.a, h.x, h.flags.carry]

/-- The machines differ at most in what no instruction reads. -/
structure Machine.Alike (m m' : Machine) : Prop where
  registers : m.registers.Alike m'.registers
  memory : m'.memory = m.memory
  phase : m'.phase = m.phase

namespace Session

structure Alike (s s' : Session) : Prop where
  machine : s.machine.Alike s'.machine
  console : s'.console = s.console

namespace Alike

variable (h : s.Alike s')
include h

theorem inStep : InStep p s s' where
  phase := h.machine.phase
  pc := h.machine.registers.pc
  effect := by
    intro _
    simp only [Session.effect, h.machine.registers.pc, h.machine.memory, h.console,
      Instruction.effect_of_alike h.machine.registers]
  shown := by
    intro i e _
    simp only [Machine.touchEvents, Effect.apply, h.machine.memory]

theorem next : (s.next p).Alike (s'.next p) := by
  have hphase := (h.inStep (p := p)).looksSame.phase
  rcases h.inStep.executes_or_stays with ⟨i, e, hs, hs'⟩ | ⟨hs, hs'⟩
  · refine ⟨⟨?_, ?_, hphase⟩, ?_⟩
    · rw [hs.registers_next, hs'.registers_next]
      exact Registers.alike_applyRegisters h.machine.registers e
    · rw [hs.memory_next, hs'.memory_next, h.machine.memory]
    · rw [hs.console_next, hs'.console_next, h.console]
  · refine ⟨⟨?_, ?_, hphase⟩, ?_⟩
    · rw [hs.registers, hs'.registers]
      exact h.machine.registers
    · rw [hs.memory, hs'.memory, h.machine.memory]
    · rw [hs.console, hs'.console, h.console]

end Alike

theorem coupling_alike (p : Program) : Coupling p fun _ s s' => s.Alike s' where
  inStep h := h.inStep
  next h := h.next

theorem sameReserved_next (p : Program) (s : Session) :
    s.machine.registers.SameReserved (s.next p).machine.registers := by
  by_cases hs : ∃ i e, s.Executes p i e
  · obtain ⟨i, e, hs⟩ := hs
    rw [hs.registers_next]
    exact Registers.sameReserved_applyRegisters ..
  · rw [(stays_of_not_executes fun i e he => hs ⟨i, e, he⟩).registers]
    exact ⟨rfl, rfl, rfl, rfl, rfl⟩

theorem sameReserved_iterate (p : Program) (n : Nat) (s : Session) :
    s.machine.registers.SameReserved ((next p)^[n] s).machine.registers := by
  induction n with
  | zero => exact ⟨rfl, rfl, rfl, rfl, rfl⟩
  | succ n ih =>
    have hlast := sameReserved_next p ((next p)^[n] s)
    rw [Function.iterate_succ_apply']
    exact ⟨hlast.sp.trans ih.sp, ih.status.trans hlast.status⟩

end Session

/-- Where `n` steps of a machine on a console lead. -/
def Machine.after (m : Machine) (p : Program) (n : Nat) (c : Console) : Session :=
  (next p)^[n] { machine := m, console := c }

/-- Machines that differ only in what no instruction reads cannot be told apart by stepping them,
and what no instruction writes stays as it was in each of them. -/
theorem steps_of_alike (p : Program) (c : Console) (h : m.Alike m') (n : Nat) :
    (m.after p n c).machine.Alike (m'.after p n c).machine ∧
      (m'.after p n c).console = (m.after p n c).console ∧
      (∀ k < n,
        ((m'.after p k c).stepped p).outcome = ((m.after p k c).stepped p).outcome ∧
        ((m'.after p k c).stepped p).events = ((m.after p k c).stepped p).events) ∧
      m.registers.SameReserved (m.after p n c).machine.registers ∧
      m'.registers.SameReserved (m'.after p n c).machine.registers := by
  have hcoupling := coupling_alike p
  have hstart : Session.Alike { machine := m, console := c } { machine := m', console := c } :=
    ⟨h, rfl⟩
  have hend : (m.after p n c).Alike (m'.after p n c) := hcoupling.iterate n (n := 0) hstart
  refine ⟨hend.machine, hend.console, ?_, sameReserved_iterate p n { machine := m, console := c },
    sameReserved_iterate p n { machine := m', console := c }⟩
  intro k hk
  have hlooks := hcoupling.looksSame hstart hk
  exact ⟨hlooks.outcome, hlooks.events⟩

/-- A status byte with every bit set and a full cycle counter, beside one with the four flags
only. -/
theorem steps_of_unmasked :
    let p : Program := .ofList [0x69, 0x01, 0x00, 0xA0, 0x07, 0x00, 0x06, 0x01, 0x00]
    let c : Console := { pending := [] }
    let m : Machine :=
      { registers :=
          { a := 0xFFFF, y := 3, sp := 9, status := .ofByte 0xFF, cycles := 0xFFFFFFFFFFFFFFFF }
        memory := Memory.zeroed 2
        phase := .running }
    let m' : Machine :=
      { registers := { a := 0xFFFF, sp := 200, status := .ofByte 0xC3 }
        memory := Memory.zeroed 2
        phase := .running }
    m.Alike m' ∧ (m.after p 3 c).machine.Alike (m'.after p 3 c).machine ∧
      (m'.after p 3 c).console = (m.after p 3 c).console ∧
      ((m'.after p 2 c).stepped p).events = ((m.after p 2 c).stepped p).events ∧
      (m.after p 3 c).machine.registers.sp = 9 ∧
      (m'.after p 3 c).machine.registers.sp = 200 ∧
      (m.after p 3 c).machine.registers.status.spare = true ∧
      (m'.after p 3 c).machine.registers.status.spare = false := by
  intro p c m m'
  have halike : m.Alike m' := ⟨⟨rfl, rfl, rfl, rfl, rfl, rfl, rfl⟩, rfl, rfl⟩
  obtain ⟨hend, hconsole, hlooks, hkept, hkept'⟩ := steps_of_alike p c halike 3
  have hspare : m.registers.status.spare = true := by decide
  have hspare' : m'.registers.status.spare = false := by decide
  exact ⟨halike, hend, hconsole, (hlooks 2 (by decide)).2, hkept.sp, hkept'.sp,
    hkept.status.spare.trans hspare, hkept'.status.spare.trans hspare'⟩

end WordMachine
