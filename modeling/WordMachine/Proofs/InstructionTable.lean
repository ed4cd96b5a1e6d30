import Mathlib.Algebra.Group.Nat.Defs
import WordMachine.Proofs.Arithmetic
import WordMachine.Proofs.Execution

/-! The instruction table over plain numbers, where a result is computed in full before it is
wrapped into a word, and the proof that a step of the machine does what the table says. -/
namespace WordMachine

open Word

/-- A machine and its console, every word of them read as a number. -/
structure Ideal where
  a : Nat
  x : Nat
  y : Nat
  pc : Nat
  sp : Nat
  status : Status
  cycles : Nat
  cells : List Nat
  pending : List Nat
  outputs : List (Nat × Nat)
  phase : Phase
  deriving DecidableEq

def Machine.ideal (m : Machine) (c : Console) : Ideal where
  a := m.registers.a.toNat
  x := m.registers.x.toNat
  y := m.registers.y.toNat
  pc := m.registers.pc.toNat
  sp := m.registers.sp.toNat
  status := m.registers.status
  cycles := m.registers.cycles.toNat
  cells := m.memory.cells.toList.map UInt16.toNat
  pending := c.pending.map UInt16.toNat
  outputs := c.outputs.toList.map fun o => (o.value.toNat, o.address.toNat)
  phase := m.phase

namespace Ideal

variable (s : Ideal)

/-- The carry as a summand. -/
def carryIn : Int := s.status.carry.toNat

/-- The number in a cell. -/
def held (address : Nat) : Nat := s.cells.getD address 0

/-- Z and N of a word. -/
def describe (n : Nat) : Ideal :=
  { s with status := { s.status with zero := n = 0, negative := 32768 ≤ n } }

def load (reg : Register) (n : Nat) : Ideal :=
  match reg with
  | .a => { s with a := n }.describe n
  | .x => { s with x := n }.describe n
  | .y => { s with y := n }.describe n

/-- A loads the word that `raw` leaves, with C and V given. -/
def arithmetic (raw : Int) (carry overflow : Bool) : Ideal :=
  let s := s.load .a (wrap raw)
  { s with status := { s.status with carry, overflow } }

/-- C tells that `lhs` is not less than `rhs`; the difference itself is dropped. -/
def compare (lhs rhs : Nat) : Ideal :=
  let s := s.describe (wrap (lhs - rhs))
  { s with status := { s.status with carry := rhs ≤ lhs } }

def store (address n : Nat) : Ideal := { s with cells := s.cells.set address n }

/-- What an opcode with operand word `v` does, the program counter and the cycles apart. -/
def row (op : Opcode) (v : Nat) : Ideal :=
  match op with
  | .lda => s.load .a v
  | .ldx => s.load .x v
  | .ldy => s.load .y v
  | .lsa => s.load .a (s.held v)
  | .lsx => s.load .x (s.held v)
  | .cta => { s with pending := s.pending.tail }.load .a (s.pending.headD 0)
  | .adc =>
    s.arithmetic (s.a + v + s.carryIn) (65536 ≤ s.a + v + s.carryIn)
      (¬ HoldsSigned (signed s.a + signed v + s.carryIn))
  | .sbc =>
    s.arithmetic (s.a - v - (1 - s.carryIn)) (0 ≤ s.a - v - (1 - s.carryIn))
      (¬ HoldsSigned (signed s.a - signed v - (1 - s.carryIn)))
  | .cmp => s.compare s.a v
  | .cpx => s.compare s.x v
  | .cmpc => s.compare s.a (s.held v)
  | .and => s.load .a (s.a &&& v)
  | .ora => s.load .a (s.a ||| v)
  | .eor => s.load .a (s.a ^^^ v)
  | .sta => s.store v s.a
  | .stx => s.store v s.x
  | .mul => s.load .a (wrap (s.a * s.held v))
  | .mulm => (s.store v (wrap (s.a * s.held v))).describe (wrap (s.a * s.held v))
  | .tax => { s with x := s.a }
  | .xta => { s with a := s.x }
  | .ott => { s with outputs := s.outputs ++ [(s.held v, v)] }
  | .clc => { s with status := { s.status with carry := false } }
  | .nop | .brk | .jmp | .beq | .bne | .bcs | .bcc | .bmi | .bpl | .bvs | .bvc => s

/-- The flag that a branch looks at, and the value on which it is taken. -/
def branchFlag? : Opcode → Option ((Status → Bool) × Bool)
  | .beq => some (Status.zero, true)
  | .bne => some (Status.zero, false)
  | .bcs => some (Status.carry, true)
  | .bcc => some (Status.carry, false)
  | .bmi => some (Status.negative, true)
  | .bpl => some (Status.negative, false)
  | .bvs => some (Status.overflow, true)
  | .bvc => some (Status.overflow, false)
  | _ => none

def takes (op : Opcode) : Bool := (branchFlag? op).any fun (flag, wanted) => flag s.status == wanted

/-- Where the program goes on: a jump leads to its operand word, and the offset of a taken branch
counts from the end of the branch. -/
def target (op : Opcode) (v : Nat) (offset : Int) : Nat :=
  if op = .jmp then v
  else if s.takes op then wrap (s.pc + op.size + offset)
  else wrap (s.pc + op.size)

/-- One instruction of a program of `size` bytes. -/
def next (size : Nat) (op : Opcode) (v : Nat) (offset : Int) : Ideal :=
  { s.row op v with
    pc := s.target op v offset
    cycles := min (s.cycles + op.cycles (s.takes op)) (2 ^ 64 - 1)
    phase :=
      if op = .brk then .halted .brk
      else if s.target op v offset < size then .running
      else .halted .programEnd }

variable {s} {w lhs rhs pc : UInt16} {k : Cost}

theorem takes_eq_holds (op : Opcode) : s.takes op = op.holds s.status := by
  cases op <;> simp [takes, branchFlag?, Opcode.holds]

theorem cycles_row (op : Opcode) (v : Nat) : (s.row op v).cycles = s.cycles := by
  cases op <;> rfl

/-- An effect carried out on numbers. -/
def commit (s : Ideal) (e : Effect) : Ideal :=
  { s with
    a := match e.registerWrite with
      | some (.a, w) => w.toNat
      | _ => s.a
    x := match e.registerWrite with
      | some (.x, w) => w.toNat
      | _ => s.x
    y := match e.registerWrite with
      | some (.y, w) => w.toNat
      | _ => s.y
    pc := e.nextPc.toNat
    status := e.update.apply s.status
    cycles := min (s.cycles + e.cycles.toNat) (2 ^ 64 - 1)
    cells := match e.memoryWrite with
      | some (address, w) => s.cells.set address.toNat w.toNat
      | none => s.cells
    outputs := match e.output with
      | some o => s.outputs ++ [(o.value.toNat, o.address.toNat)]
      | none => s.outputs }

/-- The two counters as an effect leaves them. -/
def counted (s : Ideal) (e : Effect) : Ideal :=
  { s with pc := e.nextPc.toNat, cycles := min (s.cycles + e.cycles.toNat) (2 ^ 64 - 1) }

theorem status_describe (t : Status) (w : UInt16) :
    t.describe w = { t with zero := w.toNat = 0, negative := 32768 ≤ w.toNat } := by
  simp [Status.describe, isNegative_eq_decide, beq_zero_eq_decide]

theorem commit_load (reg : Register) :
    s.commit ((Effect.goto pc k).load reg w) = (s.load reg w.toNat).counted (Effect.goto pc k) := by
  cases reg
  all_goals
    simp only [commit, Effect.load, Status.Update.apply, status_describe]
    rfl

theorem commit_arithmetic {r : Alu.Result} {raw : Int} (hr : r.value.toNat = wrap raw) :
    s.commit ((Effect.goto pc k).arithmetic r) =
      (s.arithmetic raw r.carry r.overflow).counted (Effect.goto pc k) := by
  simp only [commit, Effect.arithmetic, Status.Update.apply, status_describe, hr]
  rfl

theorem commit_compare :
    s.commit ((Effect.goto pc k).compare lhs rhs) =
      (s.compare lhs.toNat rhs.toNat).counted (Effect.goto pc k) := by
  simp only [commit, Effect.compare, Status.Update.apply, status_describe, Alu.toNat_compare,
    Alu.carry_compare]
  rfl

/-- The store of `MULM` describes the word that it stores. -/
theorem commit_store_described {address : UInt16} :
    s.commit { Effect.goto pc k with
      memoryWrite := some (address, w), update := .zeroNegative w } =
    ((s.store address.toNat w.toNat).describe w.toNat).counted (Effect.goto pc k) := by
  simp only [commit, Status.Update.apply, status_describe]
  rfl

end Ideal

variable {p : Program} {m : Machine} {c : Console} {i : Instruction} {e : Effect}

namespace Machine

theorem toNat_cycles_addCycles (r : Registers) (n : UInt16) :
    (r.addCycles n).cycles.toNat = min (r.cycles.toNat + n.toNat) (2 ^ 64 - 1) := by
  have hlt : min (r.cycles.toNat + n.toNat) (UInt64.size - 1) < UInt64.size := by
    have : 0 < UInt64.size := by decide
    omega
  exact UInt64.toNat_ofNat_of_lt hlt

theorem ideal_apply : (e.apply m).ideal (e.applyConsole c) = (m.ideal c).commit e := by
  rcases e with ⟨_ | ⟨_ | _ | _, w⟩, _ | ⟨address, w'⟩, read, update, pc, cycles, _ | o, halts⟩
  all_goals
    simp only [ideal, Ideal.commit, Effect.apply, Effect.applyRegisters, toNat_cycles_addCycles,
      Effect.applyMemory, Effect.applyConsole, Memory.set, Console.write,
      Array.toList_setIfInBounds, List.map_set, Array.toList_push, List.map_append, List.map_cons,
      List.map_nil]
    rfl

theorem ideal_held (address : UInt16) :
    (m.ideal c).held address.toNat = (m.memory.cell address).toNat := by
  simp only [Ideal.held, ideal, Memory.cell, List.getD_eq_getElem?_getD, List.getElem?_map,
    Array.getElem?_toList, Array.getD_eq_getD_getElem?]
  cases m.memory.cells[address.toNat]? <;> rfl

theorem ideal_next : (m.ideal c).pending.headD 0 = c.next.toNat := by
  cases h : c.pending <;> simp [ideal, Console.next, h]

theorem ideal_advance :
    m.ideal c.advance = { m.ideal c with pending := (m.ideal c).pending.tail } := by
  simp [ideal, Console.advance, List.map_tail]

/-- The carry that the adder takes is the summand of the table. -/
theorem ideal_carryIn : (m.ideal c).carryIn = m.registers.status.carry.toNat := rfl

/-- Every opcode does what its row of the table says. -/
theorem commit_effect (he : i.effect m.registers m.memory c.next = .ok e) :
    (m.ideal (i.consoleAfter c)).commit e =
      ((m.ideal c).row i.opcode i.word.toNat).counted e := by
  have hconsole : i.opcode ≠ .cta → i.consoleAfter c = c := by
    intro hne
    simp [Instruction.consoleAfter, Opcode.readsConsole, hne]
  cases hop : i.opcode <;> simp only [Instruction.effect, hop] at he
  case cta =>
    cases he
    simp only [Instruction.consoleAfter, hop, Opcode.readsConsole, BEq.rfl, if_true, ideal_advance]
    rw [Ideal.row, ideal_next]
    exact Ideal.commit_load .a
  all_goals rw [hconsole (by simp [hop])]
  case lda | ldx | ldy | and | ora | eor =>
    cases he
    exact Ideal.commit_load _
  case lsa =>
    obtain ⟨-, rfl⟩ := Instruction.reading_eq_ok_iff.1 he
    rw [Ideal.row, ideal_held]
    exact Ideal.commit_load .a
  case lsx =>
    obtain ⟨-, rfl⟩ := Instruction.reading_eq_ok_iff.1 he
    rw [Ideal.row, ideal_held]
    exact Ideal.commit_load .x
  case mul =>
    obtain ⟨-, rfl⟩ := Instruction.reading_eq_ok_iff.1 he
    rw [Ideal.row, ideal_held, show (m.ideal c).a = m.registers.a.toNat from rfl, ← Word.toNat_mul]
    exact Ideal.commit_load .a
  case adc =>
    cases he
    rw [Ideal.row, ideal_carryIn]
    refine (Ideal.commit_arithmetic (Alu.toNat_value_addWithCarry ..)).trans ?_
    rw [Alu.carry_addWithCarry, Alu.overflow_addWithCarry]
    rfl
  case sbc =>
    cases he
    rw [Ideal.row, ideal_carryIn]
    refine (Ideal.commit_arithmetic (Alu.toNat_value_subWithBorrow ..)).trans ?_
    rw [Alu.carry_subWithBorrow, Alu.overflow_subWithBorrow]
    rfl
  case cmp | cpx =>
    cases he
    exact Ideal.commit_compare
  case cmpc =>
    obtain ⟨-, rfl⟩ := Instruction.reading_eq_ok_iff.1 he
    rw [Ideal.row, ideal_held]
    exact Ideal.commit_compare
  case mulm =>
    obtain ⟨-, rfl⟩ := Instruction.reading_eq_ok_iff.1 he
    rw [Ideal.row, ideal_held, show (m.ideal c).a = m.registers.a.toNat from rfl, ← Word.toNat_mul]
    exact Ideal.commit_store_described
  case sta | stx =>
    obtain ⟨-, rfl⟩ := Instruction.store_eq_ok_iff.1 he
    rfl
  case ott =>
    obtain ⟨-, rfl⟩ := Instruction.reading_eq_ok_iff.1 he
    rw [Ideal.row, ideal_held]
    rfl
  case beq | bne | bcs | bcc | bmi | bpl | bvs | bvc =>
    cases he
    unfold Instruction.branch
    split <;> rfl
  all_goals
    cases he
    rfl

theorem target_of_effect (hpc : i.pc = m.registers.pc)
    (he : i.effect m.registers m.memory c.next = .ok e) :
    (m.ideal c).target i.opcode i.word.toNat i.offset = e.nextPc.toNat := by
  rw [(Instruction.yields_of_effect he).nextPc, Ideal.target, Ideal.takes_eq_holds]
  have hidealpc : (m.ideal c).pc = i.pc.toNat := by rw [hpc]; rfl
  have hstatus : (m.ideal c).status = m.registers.status := rfl
  rw [hidealpc, hstatus]
  split
  · rfl
  · split
    · exact i.toNat_branchTarget.symm
    · exact i.toNat_nextPc.symm

/-- The phase in which a machine retires an instruction that leads to `pc`. -/
theorem ideal_retire (h : m.phase = .running) {c' : Console} {pc : UInt16} {code : UInt8} :
    (m.retire p c' e pc code).machine.ideal (m.retire p c' e pc code).console =
      { (m.ideal c').commit e with
        phase :=
          if e.halts then .halted .brk
          else if e.nextPc.toNat < p.size then .running
          else .halted .programEnd } := by
  rw [machine_retire, console_retire, ← ideal_apply]
  have hphase : (e.apply m).phase = .running := h
  have hpc : (e.apply m).registers.pc = e.nextPc := rfl
  simp only [stop?, Program.contains, hpc, decide_eq_true_eq]
  by_cases hh : e.halts = true
  · simp [hh, ideal, halt]
  · by_cases hlt : e.nextPc.toNat < p.size <;> simp [hh, hlt, ideal, halt, hphase]

/-- A machine and its console can be read off their numbers. -/
theorem ideal_injective {m' : Machine} {c' : Console} (h : m.ideal c = m'.ideal c') :
    m = m' ∧ c = c' := by
  rcases m with ⟨r, ⟨⟨cells⟩, hpos, hle⟩, phase⟩
  rcases m' with ⟨r', ⟨⟨cells'⟩, hpos', hle'⟩, phase'⟩
  rcases c with ⟨pending, ⟨outputs⟩⟩
  rcases c' with ⟨pending', ⟨outputs'⟩⟩
  rcases r
  rcases r'
  have hwords : Function.Injective UInt16.toNat := fun _ _ => UInt16.toNat_inj.1
  have houtput : Function.Injective fun o : Output => (o.value.toNat, o.address.toNat) := by
    intro o o' ho
    cases o; cases o'
    simpa [UInt16.toNat_inj] using ho
  simp only [ideal, Ideal.mk.injEq, UInt16.toNat_inj, UInt8.toNat_inj, UInt64.toNat_inj,
    List.map_inj_right hwords, List.map_inj_right houtput] at h
  obtain ⟨rfl, rfl, rfl, rfl, rfl, rfl, rfl, rfl, rfl, rfl, rfl⟩ := h
  exact ⟨rfl, rfl⟩

theorem ideal_step (h : m.phase = .running) (hd : p.decode m.registers.pc = .ok i)
    (ha : i.Addressable m.memory) :
    (m.step p c).machine.ideal (m.step p c).console =
      (m.ideal c).next p.size i.opcode i.word.toNat i.offset := by
  obtain ⟨e, he⟩ := Instruction.effect_of_addressable m.registers c.next ha
  have hy := Instruction.yields_of_effect he
  rw [step_of_effect h hd he, ideal_retire h, commit_effect he, Ideal.next,
    target_of_effect (Program.decode_pc hd) he, Ideal.takes_eq_holds, hy.halts]
  simp only [Ideal.counted, decide_eq_true_eq, hy.cycles, Ideal.cycles_row]
  rfl

/-- A step of a running machine leaves exactly what the instruction table says, for every
instruction that decodes and whose operand, if it is an address, names a cell. -/
theorem step_eq_iff_table (h : m.phase = .running) (hd : p.decode m.registers.pc = .ok i)
    (ha : i.opcode.mode = .memory → i.word.toNat < m.memory.size) (m' : Machine) (c' : Console) :
    (m.step p c).machine = m' ∧ (m.step p c).console = c' ↔
      m'.ideal c' = (m.ideal c).next p.size i.opcode i.word.toNat i.offset := by
  rw [← ideal_step h hd ha]
  constructor
  · rintro ⟨rfl, rfl⟩
    rfl
  · intro hideal
    exact ideal_injective hideal.symm

/-- A carry into the sign bit alone overflows, and a full cycle counter stays full. -/
theorem step_adc_into_sign :
    let p : Program := ⟨#[0x69, 0x00, 0x00, 0xEA]⟩
    let m : Machine :=
      { registers :=
          { a := 0x7FFF, y := 5, sp := 9, status := .ofByte 0x3D, cycles := 0xFFFFFFFFFFFFFFFE }
        memory := Memory.zeroed 2
        phase := .running }
    let c : Console := { pending := [8] }
    let i : Instruction := { opcode := .adc, pc := 0, operand := .word 0 }
    m.phase = .running ∧ p.decode m.registers.pc = .ok i ∧
      (i.opcode.mode = .memory → i.word.toNat < m.memory.size) ∧
      (m.step p c).machine =
        { registers :=
            { a := 0x8000, y := 5, pc := 3, sp := 9, status := .ofByte 0xFC
              cycles := 0xFFFFFFFFFFFFFFFF }
          memory := Memory.zeroed 2
          phase := .running } ∧
      (m.step p c).console = { pending := [8] } :=
  ⟨rfl, rfl, by decide, (step_eq_iff_table rfl rfl (by decide) _ _).2 (by decide)⟩

end Machine

end WordMachine
