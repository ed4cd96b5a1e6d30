import WordMachine.Proofs.Cycles

/-! The two phases of an instruction. What it works out changes no machine and can always be
committed, and an effect of whatever origin is committed as a whole or not at all. -/
namespace WordMachine

variable {i : Instruction} {e : Effect} {cause : Fault} {s s' : Session} {p : Program}

namespace Effect

variable {m : Machine} {c : Console} {mem : Memory}

/-- The effect records a write to a cell that there is not. -/
def Misplaced (e : Effect) (mem : Memory) (cause : Fault) : Prop :=
  ∃ address value, e.memoryWrite = some (address, value) ∧ mem.size ≤ address.toNat ∧
    cause = .addressOutOfRange address mem.size

theorem check_eq_error_iff : e.check mem = .error cause ↔ e.Misplaced mem cause := by
  unfold check Misplaced
  cases e.memoryWrite with
  | none => simp
  | some write =>
    obtain ⟨address, value⟩ := write
    by_cases h : address.toNat < mem.size
    · simp [Memory.index_of_lt h, Except.map, Nat.not_le.2 h]
    · simp [Memory.index_of_le (Nat.not_lt.1 h), Except.map, Nat.not_lt.1 h, eq_comm]

theorem lt_of_check {address value : UInt16} (h : e.check mem = .ok ())
    (hw : e.memoryWrite = some (address, value)) : address.toNat < mem.size := by
  by_contra hn
  have herror := check_eq_error_iff.2 ⟨address, value, hw, Nat.not_lt.1 hn, rfl⟩
  rw [h] at herror
  cases herror

theorem commit_eq_ok (h : e.check m.memory = .ok ()) :
    e.commit m c = .ok (e.apply m, e.applyConsole c) := by
  rw [commit, h]
  rfl

theorem commit_eq_error (h : e.check m.memory = .error cause) :
    e.commit m c = .error cause := by
  rw [commit, h]
  rfl

theorem get_apply_of_some {reg reg' : Register} {value : UInt16}
    (h : e.registerWrite = some (reg', value)) :
    (e.apply m).registers.get reg = (m.registers.set reg' value).get reg := by
  cases reg <;> simp only [apply, applyRegisters, h] <;> rfl

theorem get_apply_of_none {reg : Register} (h : e.registerWrite = none) :
    (e.apply m).registers.get reg = m.registers.get reg := by
  cases reg <;> simp only [apply, applyRegisters, h] <;> rfl

/-- All that the effect records has been done to `s` in `s'`, and nothing else. -/
structure Done (e : Effect) (s s' : Session) : Prop where
  loaded : ∀ reg value, e.registerWrite = some (reg, value) →
    s'.machine.registers.get reg = value
  kept : ∀ reg, (∀ value, e.registerWrite ≠ some (reg, value)) →
    s'.machine.registers.get reg = s.machine.registers.get reg
  status : s'.machine.registers.status = e.update.apply s.machine.registers.status
  pc : s'.machine.registers.pc = e.nextPc
  sp : s'.machine.registers.sp = s.machine.registers.sp
  cycles : s'.machine.registers.cycles.toNat =
    min (2 ^ 64 - 1) (s.machine.registers.cycles.toNat + e.cycles.toNat)
  size : s'.machine.memory.size = s.machine.memory.size
  stored : ∀ address value, e.memoryWrite = some (address, value) →
    s'.machine.memory.read address = .ok value
  untouched : ∀ address, (∀ value, e.memoryWrite ≠ some (address, value)) →
    s'.machine.memory.read address = s.machine.memory.read address
  phase : s'.machine.phase = s.machine.phase
  pending : s'.console.pending = s.console.pending
  outputs : s'.console.outputs.toList = s.console.outputs.toList ++ e.output.toList

end Effect

namespace Memory

variable {mem : Memory} {address value : UInt16}

theorem write_of_le (h : mem.size ≤ address.toNat) :
    mem.write address value = .error (.addressOutOfRange address mem.size) := by
  simp only [size] at *
  simp [write, Nat.not_lt.2 h]

theorem read_set_self (h : address.toNat < mem.size) :
    (mem.set address value).read address = .ok value := by
  rw [read_of_lt (by rwa [size_set]), cell_set h]

end Memory

namespace Registers

variable {r : Registers} {reg reg' : Register} {value : UInt16}

theorem get_set_self : (r.set reg value).get reg = value := by cases reg <;> rfl

theorem get_set_of_ne (h : reg' ≠ reg) : (r.set reg value).get reg' = r.get reg' := by
  cases reg <;> cases reg' <;> first | rfl | exact absurd rfl h

end Registers

namespace Session

/-- The first phase, as an action on a session: what the instruction would do. -/
def prepare (i : Instruction) : EStateM Fault Session Effect := do
  let s ← get
  match i.execute s.machine s.console with
  | .error cause => throw cause
  | .ok (e, c) =>
    set { s with console := c }
    return e

def modifyRegisters (f : Registers → Registers) : EStateM Fault Session Unit :=
  modify fun s => { s with machine.registers := f s.machine.registers }

def store (address value : UInt16) : EStateM Fault Session Unit := do
  let s ← get
  match s.machine.memory.write address value with
  | .error cause => throw cause
  | .ok memory => set { s with machine.memory := memory }

/-- The changes to all but memory, none of which can fail. -/
def settle (e : Effect) : EStateM Fault Session Unit := do
  e.registerWrite.forM fun (reg, value) => modifyRegisters (·.set reg value)
  modifyRegisters fun r => { r with status := e.update.apply r.status }
  e.output.forM fun output => modify fun s => { s with console := s.console.write output }
  modifyRegisters fun r => { r with pc := e.nextPc }
  modifyRegisters (·.addCycles e.cycles)

/-- The second phase, as an action on a session: what the effect records, one change after another.
What was done before a change that fails stays done, so the one that can fail comes first. -/
def perform (e : Effect) : EStateM Fault Session Unit := do
  e.memoryWrite.forM fun (address, value) => store address value
  settle e

theorem run_settle (e : Effect) (s : Session) :
    (settle e).run s =
      .ok ()
        { machine := { s.machine with registers := e.applyRegisters s.machine.registers }
          console := e.applyConsole s.console } := by
  rcases e with ⟨_ | write, memoryWrite, memoryRead, update, pc, cycles, _ | output, halts⟩ <;> rfl

theorem run_store (address value : UInt16) (s : Session) :
    (store address value).run s =
      match s.machine.memory.write address value with
      | .error cause => .error cause s
      | .ok memory => .ok () { s with machine.memory := memory } := by
  have hrun : (store address value).run s =
      (match s.machine.memory.write address value with
        | .error cause => throw cause
        | .ok memory => set { s with machine.memory := memory } :
        EStateM Fault Session Unit).run s := rfl
  rw [hrun]
  cases s.machine.memory.write address value <;> rfl

theorem run_perform_of_some {address value : UInt16} (h : e.memoryWrite = some (address, value)) :
    (perform e).run s =
      match (store address value).run s with
      | .ok _ s => (settle e).run s
      | .error cause s => .error cause s := by
  simp only [perform, h, Option.forM, EStateM.run_bind]
  cases (store address value).run s <;> rfl

/-- Changes made one after another are the changes that a commit makes at once. -/
theorem run_perform (e : Effect) (s : Session) :
    (perform e).run s =
      match e.commit s.machine s.console with
      | .ok (m, c) => .ok () { machine := m, console := c }
      | .error cause => .error cause s := by
  cases hw : e.memoryWrite with
  | none =>
    have hcheck : e.check s.machine.memory = .ok () := by rw [Effect.check, hw]
    have hmemory : e.applyMemory s.machine.memory = s.machine.memory := by
      rw [Effect.applyMemory, hw]
    rw [Effect.commit_eq_ok hcheck, Effect.apply, hmemory, perform, hw]
    exact run_settle e s
  | some write =>
    obtain ⟨address, value⟩ := write
    rw [run_perform_of_some hw, run_store]
    by_cases hlt : address.toNat < s.machine.memory.size
    · have hcheck : e.check s.machine.memory = .ok () := by
        rw [Effect.check, hw]
        simp only [Memory.index_of_lt hlt]
        rfl
      have hmemory : e.applyMemory s.machine.memory = s.machine.memory.set address value := by
        rw [Effect.applyMemory, hw]
      rw [Effect.commit_eq_ok hcheck, Effect.apply, hmemory, Memory.write_of_lt hlt]
      exact run_settle e _
    · have hle : s.machine.memory.size ≤ address.toNat := Nat.not_lt.1 hlt
      have hcheck := Effect.check_eq_error_iff.2 ⟨address, value, hw, hle, rfl⟩
      rw [Effect.commit_eq_error hcheck, Memory.write_of_le hle]

theorem run_prepare (i : Instruction) (s : Session) :
    (prepare i).run s =
      match i.execute s.machine s.console with
      | .error cause => .error cause s
      | .ok (e, c) => .ok e { s with console := c } := by
  have hrun : (prepare i).run s =
      (match i.execute s.machine s.console with
        | .error cause => throw cause
        | .ok (e, c) => do
          set { s with console := c }
          return e :
        EStateM Fault Session Effect).run s := rfl
  rw [hrun]
  cases i.execute s.machine s.console <;> rfl

/-- An instruction has looked for its cell before it records a write to it. -/
theorem check_of_execute {c c' : Console} {m : Machine} (h : i.execute m c = .ok (e, c')) :
    e.check m.memory = .ok () := by
  rw [Instruction.execute_eq] at h
  cases he : i.effect m.registers m.memory c.next with
  | error cause =>
    rw [he] at h
    cases h
  | ok e' =>
    rw [he] at h
    cases h
    exact Instruction.check_of_effect he

theorem done_apply (h : e.check s.machine.memory = .ok ()) :
    e.Done s { machine := e.apply s.machine, console := e.applyConsole s.console } := by
  have hmemory : (e.apply s.machine).memory = e.applyMemory s.machine.memory := rfl
  constructor
  case loaded =>
    intro reg value hw
    exact (Effect.get_apply_of_some hw).trans Registers.get_set_self
  case kept =>
    intro reg hne
    cases hw : e.registerWrite with
    | none => exact Effect.get_apply_of_none hw
    | some write =>
      obtain ⟨reg', value⟩ := write
      refine (Effect.get_apply_of_some hw).trans (Registers.get_set_of_ne ?_)
      rintro rfl
      exact hne value hw
  case status | sp => rcases e with ⟨_ | ⟨_ | _ | _, w⟩⟩ <;> rfl
  case pc | phase => rfl
  case cycles => exact e.cycles_applyRegisters s.machine.registers
  case size => exact Machine.size_applyMemory e s.machine.memory
  case stored =>
    intro address value hw
    rw [hmemory, Effect.applyMemory, hw]
    exact Memory.read_set_self (Effect.lt_of_check h hw)
  case untouched =>
    intro address hne
    rw [hmemory, Effect.applyMemory]
    cases hw : e.memoryWrite with
    | none => rfl
    | some write =>
      obtain ⟨address', value⟩ := write
      refine Memory.read_set_of_ne ?_
      rintro rfl
      exact hne value hw
  case pending => exact Effect.pending_applyConsole
  case outputs => exact Effect.outputs_applyConsole

/-- How the two phases of an instruction fit together in a session. -/
structure TwoPhases (p : Program) (s : Session) : Prop where
  /-- The first phase leaves the machine alone, and the second cannot fail on it then. -/
  agrees : ∀ pc i e c, p.decode pc = .ok i → i.execute s.machine s.console = .ok (e, c) →
    (prepare i).run s = .ok e { s with console := c } ∧
      ∃ s', (perform e).run { s with console := c } = .ok () s'
  /-- One commit and the changes one after another are the same, for any effect. -/
  commits : ∀ e, (perform e).run s =
    match e.commit s.machine s.console with
    | .ok (m, c) => .ok () { machine := m, console := c }
    | .error cause => .error cause s
  fails_iff : ∀ e cause, (∃ s', (perform e).run s = .error cause s') ↔
    e.Misplaced s.machine.memory cause
  fails : ∀ e cause s', (perform e).run s = .error cause s' → s' = s
  does : ∀ e s', (perform e).run s = .ok () s' → e.Done s s'

theorem run_perform_of_check (h : e.check s.machine.memory = .ok ()) :
    (perform e).run s =
      .ok () { machine := e.apply s.machine, console := e.applyConsole s.console } := by
  rw [run_perform, Effect.commit_eq_ok h]

theorem run_perform_of_check_error (h : e.check s.machine.memory = .error cause) :
    (perform e).run s = .error cause s := by
  rw [run_perform, Effect.commit_eq_error h]

theorem check_of_run_perform_error (h : (perform e).run s = .error cause s') :
    e.check s.machine.memory = .error cause ∧ s' = s := by
  cases hcheck : e.check s.machine.memory with
  | ok =>
    rw [run_perform_of_check hcheck] at h
    cases h
  | error cause' =>
    rw [run_perform_of_check_error hcheck] at h
    cases h
    exact ⟨rfl, rfl⟩

/-- What an instruction works out can be committed, and no commit stops halfway. -/
theorem twoPhases (p : Program) (s : Session) : s.TwoPhases p where
  agrees pc i e c _ he := by
    have hcheck := check_of_execute he
    refine ⟨?_, _, run_perform_of_check hcheck⟩
    rw [run_prepare, he]
  commits e := run_perform e s
  fails_iff e cause := by
    rw [← Effect.check_eq_error_iff]
    constructor
    · rintro ⟨s', h⟩
      exact (check_of_run_perform_error h).1
    · intro h
      exact ⟨s, run_perform_of_check_error h⟩
  fails e cause s' h := (check_of_run_perform_error h).2
  does e s' h := by
    cases hcheck : e.check s.machine.memory with
    | ok =>
      rw [run_perform_of_check hcheck] at h
      cases h
      exact done_apply hcheck
    | error cause =>
      rw [run_perform_of_check_error hcheck] at h
      cases h

/-- The load that goes with a misplaced store is not done either. -/
example (s : Session) (h : s.machine.memory = Memory.zeroed 2) :
    (perform
      { registerWrite := some (.a, 1), memoryWrite := some (2, 7), nextPc := 3, cycles := 4 }).run s
      = .error (.addressOutOfRange 2 2) s := by
  obtain ⟨⟨registers, memory, phase⟩, console⟩ := s
  cases h
  rfl

end Session

end WordMachine
