import WordMachine.Proofs.Decoding
import WordMachine.Step

/-! One step of a running machine, by cases: it runs off the program, it faults and only halts, or
it retires the instruction that the program counter shows. -/
namespace WordMachine

variable {p : Program} {m : Machine} {c : Console} {i : Instruction} {e : Effect}
  {r : Registers} {cause : Fault}

namespace Memory

variable {mem : Memory} {address value : UInt16}

/-- The content of a cell, zero where there is none. -/
def cell (mem : Memory) (address : UInt16) : UInt16 := mem.cells.getD address.toNat 0

theorem index_of_lt (h : address.toNat < mem.size) :
    index address mem.size = .ok address.toNat := by simp [index, h]

theorem index_of_le (h : mem.size ≤ address.toNat) :
    index address mem.size = .error (.addressOutOfRange address mem.size) := by
  simp [index, Nat.not_lt.2 h]

theorem read_of_lt (h : address.toNat < mem.size) : mem.read address = .ok (mem.cell address) := by
  simp only [size] at h
  simp [read, cell, h]

theorem read_of_le (h : mem.size ≤ address.toNat) :
    mem.read address = .error (.addressOutOfRange address mem.size) := by
  simp only [size] at *
  simp [read, Nat.not_lt.2 h]

end Memory

/-- Cycles by address mode, with the opcodes that differ from the rest of theirs. -/
def Opcode.cycles (op : Opcode) (taken : Bool) : Nat :=
  match op.mode with
  | .implied => if op = .brk then 7 else if op = .clc then 1 else 2
  | .immediate => if op = .jmp then 3 else 2
  | .memory => if op = .mulm then 6 else 4
  | .relative => if taken then 3 else 2

/-- Only branches have a condition. -/
theorem Opcode.mode_of_holds {op : Opcode} {s : Status} (h : op.holds s = true) :
    op.mode = .relative := by
  cases op
  case beq | bne | bcs | bcc | bmi | bpl | bvs | bvc => rfl
  all_goals cases h

namespace Instruction

variable {mem : Memory} {input : UInt16}

/-- An instruction that uses memory names a cell that there is. -/
def Addressable (i : Instruction) (mem : Memory) : Prop :=
  i.opcode.mode = .memory → i.word.toNat < mem.size

theorem reading_eq (f : UInt16 → Effect) :
    i.reading mem f =
      if i.word.toNat < mem.size then .ok (f (mem.cell i.word))
      else .error (.addressOutOfRange i.word mem.size) := by
  split
  case isTrue h =>
    rw [reading, Memory.read_of_lt h]
    rfl
  case isFalse h =>
    rw [reading, Memory.read_of_le (Nat.not_lt.1 h)]
    rfl

theorem store_eq (value : UInt16) :
    i.store mem value =
      if i.word.toNat < mem.size then
        .ok { i.andThen .memoryStore with memoryWrite := some (i.word, value) }
      else .error (.addressOutOfRange i.word mem.size) := by
  split
  case isTrue h =>
    rw [store, Memory.index_of_lt h]
    rfl
  case isFalse h =>
    rw [store, Memory.index_of_le (Nat.not_lt.1 h)]
    rfl

theorem reading_eq_ok_iff {f : UInt16 → Effect} :
    i.reading mem f = .ok e ↔ i.word.toNat < mem.size ∧ f (mem.cell i.word) = e := by
  rw [reading_eq]
  by_cases h : i.word.toNat < mem.size <;> simp [h]

theorem store_eq_ok_iff {value : UInt16} :
    i.store mem value = .ok e ↔
      i.word.toNat < mem.size ∧
        { i.andThen .memoryStore with memoryWrite := some (i.word, value) } = e := by
  rw [store_eq]
  by_cases h : i.word.toNat < mem.size <;> simp [h]

theorem effect_of_addressable (r : Registers) (input : UInt16) (h : i.Addressable mem) :
    ∃ e, i.effect r mem input = .ok e := by
  cases hop : i.opcode
  case lsa | lsx | cmpc | ott | mul | mulm =>
    have hlt := h (by rw [hop]; rfl)
    simp [effect, hop, reading_eq, hlt]
  case sta | stx =>
    have hlt := h (by rw [hop]; rfl)
    simp [effect, hop, store_eq, hlt]
  all_goals simp [effect, hop]

/-- Every opcode that uses memory looks at its cell before anything else. -/
theorem effect_of_not_addressable (h : ¬ i.Addressable mem) :
    i.effect r mem input = .error (.addressOutOfRange i.word mem.size) := by
  obtain ⟨hmode, hle⟩ : i.opcode.mode = .memory ∧ mem.size ≤ i.word.toNat := by
    simpa [Addressable] using h
  cases hop : i.opcode
  case lsa | lsx | cmpc | ott | mul | mulm =>
    simp [effect, hop, reading_eq, Nat.not_lt.2 hle]
  case sta | stx => simp [effect, hop, store_eq, Nat.not_lt.2 hle]
  all_goals simp [hop, Opcode.mode] at hmode

theorem effect_eq_error_iff :
    i.effect r mem input = .error cause ↔
      ¬ i.Addressable mem ∧ cause = .addressOutOfRange i.word mem.size := by
  by_cases h : i.Addressable mem
  · obtain ⟨e, he⟩ := effect_of_addressable r input h
    simp [he, h]
  · simp [effect_of_not_addressable h, h, eq_comm]

theorem addressable_of_effect (h : i.effect r mem input = .ok e) : i.Addressable mem := by
  by_contra hn
  rw [effect_of_not_addressable hn] at h
  cases h

/-- What every effect of an instruction has in common, whatever its opcode. -/
structure Yields (i : Instruction) (r : Registers) (e : Effect) : Prop where
  /-- Memory is used at the operand word or not at all. -/
  touched : e.touched? = if i.opcode.mode = .memory then some i.word else none
  /-- A jump goes to its operand word, and a branch whose flag holds to its target. -/
  nextPc : e.nextPc =
    if i.opcode = .jmp then i.word
    else if i.opcode.holds r.status then i.branchTarget
    else i.nextPc
  cycles : e.cycles.toNat = i.opcode.cycles (i.opcode.holds r.status)
  halts : e.halts = decide (i.opcode = .brk)

theorem yields_branch (h : i.opcode.mode = .relative) : i.Yields r (i.branch r.status) := by
  have hjmp : i.opcode ≠ .jmp := fun hop => by simp [hop, Opcode.mode] at h
  have hbrk : i.opcode ≠ .brk := fun hop => by simp [hop, Opcode.mode] at h
  unfold branch
  cases hh : i.opcode.holds r.status
  all_goals exact ⟨by rw [h]; rfl, by rw [hh, if_neg hjmp]; rfl,
    by rw [hh, Opcode.cycles, h]; rfl, by simp [hbrk]; rfl⟩

theorem yields_of_effect (h : i.effect r mem input = .ok e) : i.Yields r e := by
  cases hop : i.opcode <;> simp only [effect, hop] at h
  case lsa | lsx | cmpc | ott | mul | mulm =>
    obtain ⟨-, rfl⟩ := reading_eq_ok_iff.1 h
    constructor <;> rw [hop] <;> rfl
  case sta | stx =>
    obtain ⟨-, rfl⟩ := store_eq_ok_iff.1 h
    constructor <;> rw [hop] <;> rfl
  case beq | bne | bcs | bcc | bmi | bpl | bvs | bvc =>
    cases h
    exact yields_branch (by rw [hop]; rfl)
  all_goals
    cases h
    constructor <;> rw [hop] <;> rfl

theorem check_of_effect (h : i.effect r mem input = .ok e) : e.check mem = .ok () := by
  have htouched := (yields_of_effect h).touched
  cases hw : e.memoryWrite with
  | none => simp [Effect.check, hw]
  | some write =>
    simp only [Effect.touched?, hw, Option.map_some, Option.some_or] at htouched
    split at htouched
    case isTrue hmode =>
      have hlt := addressable_of_effect h hmode
      simp only [Option.some.injEq] at htouched
      simp [Effect.check, hw, htouched, Memory.index_of_lt hlt, Except.map]
    case isFalse => cases htouched

/-- The console once the instruction has taken the input it reads, if it reads one. -/
def consoleAfter (i : Instruction) (c : Console) : Console :=
  if i.opcode.readsConsole then c.advance else c

theorem execute_eq : i.execute m c =
    (i.effect m.registers m.memory c.next).map fun e => (e, i.consoleAfter c) := rfl

end Instruction

namespace Machine

theorem plan_of_effect (hd : p.decode m.registers.pc = .ok i)
    (he : i.effect m.registers m.memory c.next = .ok e) :
    m.plan p c = .ok (e, i.consoleAfter c) := by
  have hcheck := Instruction.check_of_effect he
  simp [plan, hd, Instruction.execute_eq, he, Except.map, bind, Except.bind, pure, Except.pure,
    hcheck]

theorem plan_of_decode_error (hd : p.decode m.registers.pc = .error cause) :
    m.plan p c = .error cause := by
  simp [plan, hd, bind, Except.bind]

theorem plan_of_effect_error (hd : p.decode m.registers.pc = .ok i)
    (he : i.effect m.registers m.memory c.next = .error cause) : m.plan p c = .error cause := by
  simp [plan, hd, Instruction.execute_eq, he, Except.map, bind, Except.bind]

theorem step_of_outside (h : m.phase = .running) (hb : p.byte? m.registers.pc = none) :
    m.step p c =
      { machine := m.halt .programEnd, console := c, outcome := .halted 0 .programEnd,
        events := [] } := by
  simp [step, h, hb]

theorem step_of_plan_error {code : UInt8} (h : m.phase = .running)
    (hb : p.byte? m.registers.pc = some code) (hp : m.plan p c = .error cause) :
    m.step p c =
      { machine := m.halt (.fault cause), console := c, outcome := .faulted cause,
        events := [.started m.registers.pc code, .faulted cause m.registers.pc] } := by
  simp [step, h, hb, hp]

theorem step_of_effect (h : m.phase = .running) (hd : p.decode m.registers.pc = .ok i)
    (he : i.effect m.registers m.memory c.next = .ok e) :
    m.step p c = m.retire p (i.consoleAfter c) e m.registers.pc i.opcode.code := by
  simp [step, h, Program.byte?_of_decode hd, plan_of_effect hd he]

theorem size_applyMemory (e : Effect) (mem : Memory) : (e.applyMemory mem).size = mem.size := by
  unfold Effect.applyMemory
  split
  · rfl
  · exact Memory.size_set ..

/-- The machine that has just retired an instruction, its phase apart. -/
theorem machine_retire {pc : UInt16} {code : UInt8} :
    (m.retire p c e pc code).machine =
      match (e.apply m).stop? p e with
      | none => e.apply m
      | some reason => (e.apply m).halt reason := by
  simp only [retire]
  split <;> simp_all

theorem console_retire {pc : UInt16} {code : UInt8} :
    (m.retire p c e pc code).console = e.applyConsole c := by
  simp only [retire]
  split <;> rfl

theorem outcome_retire {pc : UInt16} {code : UInt8} :
    (m.retire p c e pc code).outcome =
      match (e.apply m).stop? p e with
      | none => .retired e.cycles
      | some reason => .halted e.cycles reason := by
  simp only [retire]
  split <;> simp_all

end Machine

end WordMachine
