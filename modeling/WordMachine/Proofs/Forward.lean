import WordMachine.Proofs.Lockstep
import WordMachine.Proofs.Traffic

/-! Forward programs: where every jump and branch leads to a higher address, the program counter
climbs with every step, and it has left the program after at most as many steps as there are
bytes. -/
namespace WordMachine

open Session

variable {p : Program} {s : Session} {i : Instruction} {e : Effect} {n k : Nat}

/-- If the instruction is a jump or a branch, it leads to a higher address than its own. -/
def Instruction.LeadsUp (i : Instruction) : Prop :=
  (i.opcode = .jmp → i.pc < i.word) ∧ (i.opcode.mode = .relative → i.pc < i.branchTarget)

instance (i : Instruction) : Decidable i.LeadsUp :=
  inferInstanceAs (Decidable ((i.opcode = .jmp → i.pc < i.word) ∧
    (i.opcode.mode = .relative → i.pc < i.branchTarget)))

/-- No address of the program, on an instruction boundary or not, holds a jump or a branch that
leads back. -/
def Program.Forward (p : Program) : Prop :=
  ∀ (pc : UInt16) (i : Instruction), p.contains pc = true → p.decode pc = .ok i → i.LeadsUp

theorem Program.forward_iff :
    p.Forward ↔ ∀ k < p.size, ∀ i ∈ (p.decode (UInt16.ofNat k)).toOption, i.LeadsUp := by
  constructor
  · intro h k hk i hi
    have hin : (UInt16.ofNat k).toNat < p.size :=
      Nat.lt_of_le_of_lt (Nat.mod_le k UInt16.size) hk
    refine h _ i (decide_eq_true hin) ?_
    cases hd : p.decode (UInt16.ofNat k) with
    | error cause => simp [hd, Except.toOption] at hi
    | ok j => simpa [hd, Except.toOption] using hi
  · intro h pc i hin hd
    refine h pc.toNat (of_decide_eq_true hin) i ?_
    simp [hd, Except.toOption]

instance (p : Program) : Decidable p.Forward := decidable_of_iff _ Program.forward_iff.symm

/-- No address of a program of this size wraps, so that going on is going up. -/
theorem Session.Executes.pc_lt_nextPc (h : s.Executes p i e) (hf : p.Forward)
    (hsize : p.size ≤ 65535) : s.machine.registers.pc.toNat < e.nextPc.toNat := by
  have hpc := Program.decode_pc h.decode
  obtain ⟨hjump, hbranch⟩ := hf _ i h.live.inside h.decode
  rw [(Instruction.yields_of_effect h.effect).nextPc, ← hpc]
  split
  case isTrue hjmp => exact UInt16.lt_iff_toNat_lt.1 (hjump hjmp)
  case isFalse =>
    split
    case isTrue hholds => exact UInt16.lt_iff_toNat_lt.1 (hbranch (Opcode.mode_of_holds hholds))
    case isFalse =>
      -- the program holds the whole instruction, so that the address behind it does not wrap
      have hend := Program.add_size_le_of_decode h.decode
      have hpos := i.opcode.mode.size_pos
      rw [← hpc] at hend
      rw [i.toNat_nextPc]
      simp only [Word.wrap, Instruction.size, Opcode.size] at *
      omega

namespace Session

theorem pc_lt_next (hf : p.Forward) (hsize : p.size ≤ 65535) (h : (s.next p).Live p) :
    s.machine.registers.pc.toNat < (s.next p).machine.registers.pc.toNat := by
  have hl := live_of_live_next h
  rcases executes_or_faults hl with ⟨i, e, he⟩ | ⟨cause, he⟩
  · rw [he.registers_next]
    exact he.pc_lt_nextPc hf hsize
  · have hrun := h.running
    rw [next, stepped_of_fault hl he] at hrun
    cases hrun

theorem add_le_pc_iterate (hf : p.Forward) (hsize : p.size ≤ 65535)
    (h : ((next p)^[k] s).Live p) :
    s.machine.registers.pc.toNat + k ≤ ((next p)^[k] s).machine.registers.pc.toNat := by
  induction k with
  | zero => exact Nat.le_refl _
  | succ k ih =>
    rw [Function.iterate_succ_apply'] at h ⊢
    have hlt := pc_lt_next hf hsize h
    have hle := ih (live_of_live_next h)
    omega

theorem lt_size_of_live_iterate (hf : p.Forward) (hsize : p.size ≤ 65535)
    (h : ((next p)^[k] s).Live p) : k < p.size := by
  have hle := add_le_pc_iterate hf hsize h
  have hlt : ((next p)^[k] s).machine.registers.pc.toNat < p.size := of_decide_eq_true h.inside
  omega

theorem liveSteps_le_size (hf : p.Forward) (hsize : p.size ≤ 65535) (n : Nat) (s : Session) :
    liveSteps p n s ≤ p.size := by
  by_contra hlt
  have hlive := live_of_lt_liveSteps (Nat.lt_of_not_le hlt)
  exact Nat.lt_irrefl _ (lt_size_of_live_iterate hf hsize hlive)

theorem isHalted_of_size_le (hf : p.Forward) (hsize : p.size ≤ 65535) (h : s.Live p)
    (hn : p.size ≤ n) : ((next p)^[n] s).machine.phase.isHalted = true := by
  refine isHalted_iterate_of_live h fun hlive => ?_
  have hlt := lt_size_of_live_iterate hf hsize hlive
  omega

end Session

/-- A forward program halts within as many steps as it has bytes. -/
theorem run_of_forward (hsize : p.size ≤ 65535) (hf : p.Forward) (inputs : List UInt16)
    (config : Config) (hbound : p.size ≤ config.maxSteps) :
    (run p inputs config).halted = true ∧ (run p inputs config).trace.length ≤ p.size := by
  obtain ⟨htrace, -, -, -, hhalted⟩ := run_eq p inputs config
  constructor
  · rw [hhalted]
    cases hempty : p.isEmpty with
    | true => rfl
    | false =>
      have hlive : (start inputs config).Live p := live_start_iff.2 hempty
      exact isHalted_of_size_le hf hsize hlive hbound
  · rw [htrace, Progress.entriesFrom, List.length_map, List.length_range]
    exact liveSteps_le_size hf hsize config.maxSteps _

/-- A branch over a load, and a jump to the end. -/
theorem run_of_skip :
    let p : Program := .ofList [0x05, 0xF0, 0x03, 0xA9, 0x05, 0x00, 0x4C, 0x09, 0x00]
    let config : Config := { maxSteps := 9 }
    p.size ≤ 65535 ∧ p.Forward ∧ p.size ≤ config.maxSteps ∧
      (run p [0] config).halted = true ∧ (run p [0] config).trace.length ≤ 9 := by
  intro p config
  have hf : p.Forward := by decide +kernel
  have hrun := run_of_forward (p := p) (by decide) hf [0] config (by decide)
  exact ⟨by decide, hf, by decide, hrun.1, hrun.2⟩

/-- Where the program fills all addresses, only `BRK` and a fault stop it. -/
theorem Session.Executes.live_next (h : s.Executes p i e) (hin : ∀ pc, p.contains pc = true)
    (hop : i.opcode ≠ .brk) : (s.next p).Live p where
  running := by
    have hhalts : e.halts = false := by
      rw [(Instruction.yields_of_effect h.effect).halts]
      exact decide_eq_false hop
    rw [next, h.stepped_eq, Machine.phase_retire, Machine.stop?_apply, hhalts, hin]
    exact h.live.running
  inside := hin _

/-- One byte more and a forward program need not end: after the last `NOP` the program counter
wraps to the first. -/
theorem run_of_full_program (inputs : List UInt16) (config : Config) :
    let p : Program := ⟨Array.replicate 65536 Opcode.nop.code⟩
    p.Forward ∧ (run p inputs config).halted = false := by
  intro p
  have hsize : p.size = 65536 := Array.size_replicate
  have hin : ∀ pc, p.contains pc = true := by
    intro pc
    rw [Program.contains, hsize]
    exact decide_eq_true pc.toNat_lt
  have hdecode : ∀ pc, p.decode pc = .ok { opcode := .nop, pc, operand := .none } := by
    intro pc
    refine Program.decode_of_implied ?_ rfl
    rw [Program.byte?, Array.getElem?_replicate]
    exact if_pos pc.toNat_lt
  have hlive : ∀ k, ((next p)^[k] (start inputs config)).Live p := by
    intro k
    induction k with
    | zero => exact ⟨rfl, hin _⟩
    | succ k ih =>
      have hnop : ((next p)^[k] (start inputs config)).Executes p _ _ := ⟨ih, hdecode _, rfl⟩
      rw [Function.iterate_succ_apply']
      refine hnop.live_next hin fun hop => ?_
      cases hop
  constructor
  · intro pc i _ hd
    rw [hdecode] at hd
    cases hd
    refine ⟨fun hop => ?_, fun hmode => ?_⟩
    · cases hop
    · cases hmode
  · have hempty : p.isEmpty = false := by simp [Program.isEmpty, hsize]
    rw [(run_eq p inputs config).2.2.2.2, hempty, Session.final, (hlive _).running]
    rfl

end WordMachine
