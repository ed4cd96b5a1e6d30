import WordMachine.Proofs.Boundaries
import WordMachine.Proofs.TraceShape

/-! Runs of assembled programs whose jumps are well targeted: the program counter stays on the
boundaries of the listing, so that every step decodes, and only a memory operand can fault. -/
namespace WordMachine

open Source

namespace Source

/-- A statement that sets the program counter. -/
def Statement.Jumps (s : Statement) : Prop := s.opcode = .jmp ∨ s.opcode.mode = .relative

instance (s : Statement) : Decidable s.Jumps :=
  inferInstanceAs (Decidable (s.opcode = .jmp ∨ s.opcode.mode = .relative))

/-- Only the operand itself is tested, not every word in turn. -/
instance (s : Statement) (symbols : Symbols) (P : UInt16 → Prop) [DecidablePred P] :
    Decidable (∀ value ∈ s.value? symbols, P value) :=
  Option.decidableForallMem _

/-- Every jump and branch of the text leads to an instruction or to the end of the program. -/
def WellTargeted (text : String) (a : Assembly) : Prop :=
  ∀ s ∈ statements text, s.Jumps → ∀ value ∈ s.value? a.symbols, a.Boundary value

instance (text : String) (a : Assembly) : Decidable (WellTargeted text a) :=
  inferInstanceAs (Decidable (∀ s ∈ statements text, s.Jumps →
    ∀ value ∈ s.value? a.symbols, a.Boundary value))

/-- The memory operands of the text name cells of a memory of `words` cells. -/
def WithinMemory (text : String) (a : Assembly) (words : Nat) : Prop :=
  ∀ s ∈ statements text, s.opcode.mode = .memory →
    ∀ value ∈ s.value? a.symbols, value.toNat < words

instance (text : String) (a : Assembly) (words : Nat) : Decidable (WithinMemory text a words) :=
  inferInstanceAs (Decidable (∀ s ∈ statements text, s.opcode.mode = .memory →
    ∀ value ∈ s.value? a.symbols, value.toNat < words))

end Source

variable {text : String} {a : Assembly} {words : Nat} {s : Session}

/-- A session on its way through an assembled program. Had it faulted, it would be at a statement
whose operand names no cell. -/
structure Session.OnCourse (text : String) (a : Assembly) (words : Nat) (s : Session) : Prop where
  boundary : a.Boundary s.machine.registers.pc
  memory : s.machine.memory.size = words
  fault : ∀ cause, s.machine.phase.fault? = some cause → ¬ WithinMemory text a words ∧
    ∃ address, cause = .addressOutOfRange address words

namespace Session.OnCourse

theorem start (h : assemble text = .ok a) (inputs : List UInt16) (config : Config) :
    (Session.start inputs config).OnCourse text a config.memoryWords where
  boundary := boundary_zero h
  memory := by
    have hpos := config.memoryWords_pos
    have hle := config.memoryWords_le
    simp only [Memory.maxWords] at hle
    change (Memory.zeroed config.memoryWords).size = _
    rw [Memory.size_zeroed]
    omega
  fault := nofun

/-- A boundary inside the program is the address of an entry. -/
theorem listed (hs : s.OnCourse text a words) (hlive : s.Live a.program) :
    ∃ x ∈ a.listing, x.address = s.machine.registers.pc := by
  rcases hs.boundary with hx | hend
  · exact hx
  · have hlt : s.machine.registers.pc.toNat < a.program.size := of_decide_eq_true hlive.inside
    omega

/-- An instruction goes on behind itself or where its operand says. -/
theorem boundary_of_yields {x : Listed} {i : Instruction} {r : Registers} {e : Effect}
    (h : assemble text = .ok a) (hx : x ∈ a.listing) (hd : a.program.decode x.address = .ok i)
    (hsize : i.opcode.size = x.bytes.length)
    (htarget : i.opcode = .jmp ∨ i.opcode.mode = .relative → ∀ value ∈ i.value?, a.Boundary value)
    (hy : i.Yields r e) : a.Boundary e.nextPc := by
  rw [hy.nextPc]
  split
  case isTrue hjmp =>
    exact htarget (.inl hjmp) i.word (Program.value?_of_word hd (.inl (by rw [hjmp]; rfl)))
  case isFalse =>
    split
    case isTrue hholds =>
      have hbranch := Opcode.mode_of_holds hholds
      exact htarget (.inr hbranch) i.branchTarget (Program.value?_of_branch hd hbranch)
    case isFalse => exact boundary_nextPc h hx (Program.decode_pc hd) hsize

theorem next (h : assemble text = .ok a) (ht : WellTargeted text a)
    (hs : s.OnCourse text a words) : (s.next a.program).OnCourse text a words := by
  by_cases hlive : s.Live a.program
  · obtain ⟨x, hx, hpc⟩ := hs.listed hlive
    obtain ⟨st, hst, i, hd, hop, hvalue, hsize⟩ := decode_of_listed h hx
    have hdecode : a.program.decode s.machine.registers.pc = .ok i := hpc ▸ hd
    cases he : i.effect s.machine.registers s.machine.memory s.console.next with
    | error cause =>
      obtain ⟨hna, rfl⟩ := Instruction.effect_eq_error_iff.1 he
      rw [Session.next_of_effect_error hlive.running hdecode he, hs.memory]
      refine ⟨hs.boundary, hs.memory, ?_⟩
      rintro cause ⟨⟩
      refine ⟨fun hwithin => hna ?_, i.word, rfl⟩
      intro hmode
      have hword := Program.value?_of_word hd (.inr hmode)
      rw [hs.memory]
      exact hwithin st hst (hop ▸ hmode) i.word (hvalue ▸ hword)
    | ok e =>
      obtain ⟨hregisters, hmemory, hfault, -⟩ :=
        Session.next_of_effect hlive.running hdecode he
      refine ⟨?_, ?_, by rw [hfault]; nofun⟩
      · rw [hregisters]
        refine boundary_of_yields h hx hd hsize ?_ (Instruction.yields_of_effect he)
        rw [hop, hvalue]
        exact ht st hst
      · rw [hmemory, Machine.size_applyMemory, hs.memory]
  · obtain ⟨reason, hmachine, -, -, hfault⟩ := stepped_of_not_live hlive
    rw [Session.next, hmachine]
    exact ⟨hs.boundary, hs.memory, fun cause hcause => hs.fault cause (hfault ▸ hcause)⟩

theorem iterate (h : assemble text = .ok a) (ht : WellTargeted text a)
    (hs : s.OnCourse text a words) (n : Nat) :
    ((Session.next a.program)^[n] s).OnCourse text a words := by
  induction n with
  | zero => exact hs
  | succ n ih =>
    rw [Function.iterate_succ_apply']
    exact ih.next h ht

end Session.OnCourse

variable {inputs : List UInt16} {config : Config}

/-- The entry of the listing that an entry of the trace executes. -/
theorem exists_listed_of_mem_trace (h : assemble text = .ok a) (ht : WellTargeted text a)
    {e : Trace.Entry} (he : e ∈ (run a.program inputs config).trace) :
    ∃ x ∈ a.listing, e.before.pc = x.address ∧ x.bytes.head? = some e.opcode := by
  obtain ⟨k, s, rfl, hlive, rfl⟩ := exists_of_mem_trace he
  have hs := (Session.OnCourse.start h inputs config).iterate h ht k
  obtain ⟨x, hx, hpc⟩ := hs.listed hlive
  refine ⟨x, hx, hpc.symm, ?_⟩
  obtain ⟨-, -, i, -, -, -, hsize⟩ := decode_of_listed h hx
  have hpos : 0 < x.bytes.length := hsize ▸ i.opcode.mode.size_pos
  have hb := Trace.Entry.byte?_ofStep k hlive
  have hat := holdsAt_of_listed h hx 0 hpos
  rw [hpc] at hat
  rw [List.head?_eq_getElem?, ← hat]
  exact hb

/-- In an assembled program a label leads to an instruction or to the end. If every jump and branch
does, then every step of a run executes an entry of the listing from its first byte on. Only an
operand past the end of memory can fault. -/
theorem run_of_wellTargeted (h : assemble text = .ok a) :
    (∀ s ∈ statements text, ∀ name, s.argument? = some (.label name) →
      ∃ value, s.value? a.symbols = some value ∧ a.Boundary value) ∧
    (WellTargeted text a → ∀ (inputs : List UInt16) (config : Config),
      (∀ e ∈ (run a.program inputs config).trace, ∃ x ∈ a.listing,
        e.before.pc = x.address ∧ x.bytes.head? = some e.opcode) ∧
      ((run a.program inputs config).error = none ∨
        ∃ address limit,
          (run a.program inputs config).error = some (.addressOutOfRange address limit)) ∧
      (WithinMemory text a config.memoryWords → (run a.program inputs config).error = none)) := by
  refine ⟨fun s hs name => boundary_of_label h hs, ?_⟩
  intro ht inputs config
  have hcourse : (Session.final a.program inputs config).OnCourse text a config.memoryWords :=
    (Session.OnCourse.start h inputs config).iterate h ht config.maxSteps
  have herror := (run_eq a.program inputs config).2.2.2.1
  refine ⟨fun e he => exists_listed_of_mem_trace h ht he, ?_⟩
  rw [herror]
  cases hfault : (Session.final a.program inputs config).machine.phase.fault? with
  | none => exact ⟨.inl rfl, fun _ => rfl⟩
  | some cause =>
    obtain ⟨hnot, address, rfl⟩ := hcourse.fault cause hfault
    exact ⟨.inr ⟨address, _, rfl⟩, fun hwithin => absurd hwithin hnot⟩

/-- A loop back to a label, left by a jump to the end of the program. -/
theorem run_of_counter :
    let text := "CTA\ntop: STA 0x0010\nADC 0xFFFF\nBNE top\nJMP 12"
    let config : Config := { memoryWords := 17 }
    ∃ a, assemble text = .ok a ∧ WellTargeted text a ∧ WithinMemory text a config.memoryWords ∧
      (run a.program [5] config).error = none ∧
      ∀ e ∈ (run a.program [5] config).trace, ∃ x ∈ a.listing,
        e.before.pc = x.address ∧ x.bytes.head? = some e.opcode := by
  intro text config
  have hcheck : (assemble text).map (fun a =>
      decide (WellTargeted text a ∧ WithinMemory text a config.memoryWords)) = .ok true := by
    decide +kernel
  obtain ⟨a, ha, hdecide⟩ := map_eq_ok_iff.1 hcheck
  obtain ⟨htarget, hwithin⟩ := of_decide_eq_true hdecide
  obtain ⟨htrace, -, hnone⟩ := (run_of_wellTargeted ha).2 htarget [5] config
  exact ⟨a, ha, htarget, hwithin, hnone hwithin, htrace⟩

end WordMachine
