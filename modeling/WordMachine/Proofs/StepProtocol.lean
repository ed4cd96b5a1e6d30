import WordMachine.Proofs.Faults
import WordMachine.Proofs.Lockstep
import WordMachine.Proofs.Traffic

/-! What a step reports: nothing where no instruction begins, a start and a fault where one cannot
be carried out, and else the start of an instruction, the cell that it used, and its end. The first
step that does not go on is the last one that does anything. -/
namespace WordMachine

variable {p : Program} {s : Session} {i : Instruction} {e : Effect} {cause : Fault}
  {cycles : UInt16} {reason : HaltReason}

/-- The opcodes that write to memory. -/
def Opcode.stores (op : Opcode) : Bool := op == .sta || op == .stx || op == .mulm

theorem Memory.read_set_of_ne {m : Memory} {a b v : UInt16} (h : a ≠ b) :
    (m.set a v).read b = m.read b := by
  by_cases hlt : b.toNat < m.size
  · rw [read_of_lt hlt, read_of_lt (by rwa [size_set]), cell_set_of_ne h]
  · have hle := Nat.le_of_not_lt hlt
    rw [read_of_le hle, read_of_le (by rwa [size_set]), size_set]

namespace Instruction

variable {r : Registers} {mem : Memory} {input : UInt16}

theorem isSome_memoryWrite (h : i.effect r mem input = .ok e) :
    e.memoryWrite.isSome = i.opcode.stores := by
  cases hop : i.opcode <;> simp only [effect, hop] at h
  case lsa | lsx | cmpc | ott | mul | mulm =>
    obtain ⟨-, rfl⟩ := reading_eq_ok_iff.1 h
    rfl
  case sta | stx =>
    obtain ⟨-, rfl⟩ := store_eq_ok_iff.1 h
    rfl
  case beq | bne | bcs | bcc | bmi | bpl | bvs | bvc =>
    cases h
    unfold branch
    split <;> rfl
  all_goals
    cases h
    rfl

/-- An instruction leaves every cell as it is, but for the one that a store names. -/
theorem read_applyMemory (h : i.effect r mem input = .ok e) {address : UInt16}
    (ha : i.opcode.stores = true → address ≠ i.word) :
    (e.applyMemory mem).read address = mem.read address := by
  have htouched := (yields_of_effect h).touched
  have hstores := isSome_memoryWrite h
  cases hw : e.memoryWrite with
  | none => simp only [Effect.applyMemory, hw]
  | some write =>
    obtain ⟨a, v⟩ := write
    rw [hw, Option.isSome_some] at hstores
    simp only [Effect.touched?, hw, Option.map_some, Option.some_or] at htouched
    split at htouched
    · cases htouched
      simp only [Effect.applyMemory, hw]
      exact Memory.read_set_of_ne (ha hstores.symm).symm
    · cases htouched

end Instruction

/-- What a machine that has stopped answers from then on. -/
def Outcome.repeated : Outcome → Outcome
  | .retired cycles => .retired cycles
  | .halted _ reason => .halted 0 reason
  | .faulted cause => .faulted cause

theorem HaltReason.repeated_outcome (reason : HaltReason) :
    reason.outcome.repeated = reason.outcome := by cases reason <;> rfl

namespace Session

/-- What a step reports of the instruction that it retires, and what it does to memory. -/
structure Reports (p : Program) (s : Session) (i : Instruction) (cycles : UInt16) : Prop where
  decode : p.decode s.machine.registers.pc = .ok i
  outcome : (s.stepped p).outcome = .retired cycles ∨
    ∃ reason, (s.stepped p).outcome = .halted cycles reason
  events : ∃ touched,
    (s.stepped p).events =
      .started s.machine.registers.pc i.opcode.code ::
        (touched ++ [.retired s.machine.registers.pc cycles]) ∧
    if i.opcode.mode = .memory then
      ∃ value, (s.next p).machine.memory.read i.word = .ok value ∧
        touched = [.touched i.word value i.opcode.stores]
    else touched = []
  kept : ∀ address, (i.opcode.stores = true → address ≠ i.word) →
    (s.next p).machine.memory.read address = s.machine.memory.read address

/-- What a step may do, whatever session it is taken from. -/
structure Protocol (p : Program) (s : Session) : Prop where
  silent : s.machine.phase.isHalted = true ∨ p.size ≤ s.machine.registers.pc.toNat →
    (s.stepped p).events = []
  faulted : s.machine.phase = .running → ∀ cause, (s.stepped p).outcome = .faulted cause →
    ∃ code, p.byte? s.machine.registers.pc = some code ∧
      (s.stepped p).events =
        [.started s.machine.registers.pc code, .faulted cause s.machine.registers.pc]
  reports : s.machine.phase = .running → s.machine.registers.pc.toNat < p.size →
    (∀ cause, (s.stepped p).outcome ≠ .faulted cause) →
      ∃ i cycles, p.byte? s.machine.registers.pc = some i.opcode.code ∧ s.Reports p i cycles
  retired_iff : (∃ cycles, (s.stepped p).outcome = .retired cycles) ↔
    s.machine.phase = .running ∧ (s.next p).machine.phase = .running
  inside : ∀ cycles, (s.stepped p).outcome = .retired cycles →
    (s.next p).machine.registers.pc.toNat < p.size
  /-- A step that does not go on is followed by steps that do nothing and answer as it did. -/
  absorbed : (∀ cycles, (s.stepped p).outcome ≠ .retired cycles) → ∀ k,
    (next p)^[k] (s.next p) = s.next p ∧
      (((next p)^[k] (s.next p)).stepped p).events = [] ∧
      (((next p)^[k] (s.next p)).stepped p).outcome = (s.stepped p).outcome.repeated

theorem Executes.reports (h : s.Executes p i e) : s.Reports p i e.cycles where
  decode := h.decode
  outcome := by
    rw [h.stepped_eq, Machine.outcome_retire]
    cases (e.apply s.machine).stop? p e with
    | none => exact .inl rfl
    | some reason => exact .inr ⟨reason, rfl⟩
  events := by
    refine ⟨(e.apply s.machine).touchEvents e, ?_, ?_⟩
    · rw [h.stepped_eq, Machine.events_retire]
    · rw [Machine.touchEvents_of_effect h.effect, Instruction.isSome_memoryWrite h.effect,
        h.memory_next]
      split
      case isTrue hmode =>
        refine ⟨_, Memory.read_of_lt ?_, rfl⟩
        rw [Machine.size_applyMemory]
        exact Instruction.addressable_of_effect h.effect hmode
      case isFalse => rfl
  kept address ha := by
    rw [h.memory_next]
    exact Instruction.read_applyMemory h.effect ha

theorem executes_of_not_faulted (h : s.Live p)
    (hne : ∀ cause, (s.stepped p).outcome ≠ .faulted cause) : ∃ i e, s.Executes p i e := by
  rcases executes_or_faults h with he | ⟨cause, he⟩
  · exact he
  · refine absurd ?_ (hne cause)
    rw [stepped_of_fault h he]

/-- A step that begins no instruction answers why the machine is halted after it. -/
theorem outcome_of_not_live (h : ¬ s.Live p) :
    ∃ reason, (s.next p).machine.phase = .halted reason ∧
      (s.stepped p).outcome = reason.outcome := by
  rcases not_live_iff.1 h with hhalted | ⟨hrun, hout⟩
  · cases hphase : s.machine.phase with
    | running => simp [hphase, Phase.isHalted] at hhalted
    | halted reason =>
      rw [next, stepped_of_halted hphase]
      exact ⟨reason, hphase, rfl⟩
  · rw [next, stepped_of_outside hrun hout]
    exact ⟨.programEnd, rfl, rfl⟩

/-- A step that does not go on leaves the machine halted, for the reason that it answers with. -/
theorem halted_of_not_retired (h : ∀ cycles, (s.stepped p).outcome ≠ .retired cycles) :
    ∃ reason, (s.next p).machine.phase = .halted reason ∧
      reason.outcome = (s.stepped p).outcome.repeated := by
  by_cases hl : s.Live p
  · cases hl.step.1 with
    | retired ho => exact absurd ho (h _)
    | @halted cycles reason ho hphase hfault =>
      refine ⟨reason, hphase, ?_⟩
      rw [hphase] at hfault
      rw [ho]
      cases reason with
      | fault cause => cases hfault
      | brk | programEnd => rfl
    | @faulted cause ho hmachine =>
      refine ⟨.fault cause, ?_, ?_⟩
      · rw [next, hmachine]
        rfl
      · rw [ho]
        rfl
  · obtain ⟨reason, hphase, ho⟩ := outcome_of_not_live hl
    exact ⟨reason, hphase, by rw [ho, HaltReason.repeated_outcome]⟩

/-- A step that goes on leaves a running machine inside its program. -/
theorem running_of_retired (h : (s.stepped p).outcome = .retired cycles) :
    s.machine.phase = .running ∧ (s.next p).machine.phase = .running ∧
      p.contains (s.next p).machine.registers.pc = true := by
  by_cases hl : s.Live p
  · cases hl.step.1 with
    | retired ho hphase hinside => exact ⟨hl.running, hphase, hinside⟩
    | halted ho =>
      rw [h] at ho
      cases ho
    | faulted ho =>
      rw [h] at ho
      cases ho
  · obtain ⟨reason, -, ho⟩ := outcome_of_not_live hl
    rw [h] at ho
    cases reason <;> cases ho

theorem retired_iff_running :
    (∃ cycles, (s.stepped p).outcome = .retired cycles) ↔
      s.machine.phase = .running ∧ (s.next p).machine.phase = .running := by
  constructor
  · rintro ⟨cycles, ho⟩
    obtain ⟨hphase, hnext, -⟩ := running_of_retired ho
    exact ⟨hphase, hnext⟩
  · rintro ⟨-, hnext⟩
    by_contra hne
    obtain ⟨reason, hphase, -⟩ := halted_of_not_retired fun cycles ho => hne ⟨cycles, ho⟩
    rw [hnext] at hphase
    cases hphase

/-- Once the machine has halted, stepping it repeats the reason and nothing else happens. -/
theorem iterate_of_phase_halted (h : s.machine.phase = .halted reason) (k : Nat) :
    (next p)^[k] s = s ∧ (((next p)^[k] s).stepped p).events = [] ∧
      (((next p)^[k] s).stepped p).outcome = reason.outcome := by
  have hfixed : (next p)^[k] s = s := iterate_of_halted (by rw [h]; rfl) k
  rw [hfixed, stepped_of_halted h]
  exact ⟨rfl, rfl, rfl⟩

/-- Every step keeps to the protocol. -/
theorem protocol_of_step (p : Program) (s : Session) : s.Protocol p where
  silent h := by
    have hnot : ¬ s.Live p := by
      rintro ⟨hrun, hinside⟩
      rcases h with hhalted | hout
      · rw [hrun] at hhalted
        cases hhalted
      · have hlt : s.machine.registers.pc.toNat < p.size := of_decide_eq_true hinside
        omega
    obtain ⟨reason, -, -, hevents, -⟩ := stepped_of_not_live hnot
    exact hevents
  faulted hrun cause ho := by
    obtain ⟨code, hb, hs⟩ := Machine.step_of_faulty (c := s.console) hrun
      (Machine.faulty_of_step hrun ho)
    refine ⟨code, hb, ?_⟩
    rw [stepped, hs]
  reports hrun hlt hne := by
    have hlive : s.Live p := ⟨hrun, decide_eq_true hlt⟩
    obtain ⟨i, e, he⟩ := executes_of_not_faulted hlive hne
    exact ⟨i, e.cycles, Program.byte?_of_decode he.decode, he.reports⟩
  retired_iff := retired_iff_running
  inside cycles ho := by
    obtain ⟨-, -, hinside⟩ := running_of_retired ho
    exact of_decide_eq_true hinside
  absorbed hne k := by
    obtain ⟨reason, hphase, houtcome⟩ := halted_of_not_retired hne
    rw [← houtcome]
    exact iterate_of_phase_halted hphase k

end Session

end WordMachine
