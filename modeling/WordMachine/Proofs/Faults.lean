import WordMachine.Proofs.Execution

/-! Precise faults: which fault a running machine raises, and that it changes nothing but the
phase. -/
namespace WordMachine.Machine

variable {p : Program} {m : Machine} {c : Console} {cause : Fault}

/-- What a running machine faults on: a byte that is no opcode, an instruction that the end of the
program cuts off, or a complete instruction whose operand word names no cell. -/
inductive Faulty (p : Program) (m : Machine) : Fault → Prop
  | unassigned {code : UInt8} (hb : p.byte? m.registers.pc = some code)
      (hne : ∀ op : Opcode, op.code ≠ code) :
      Faulty p m (.invalidOpcode code m.registers.pc)
  | cutOff {op : Opcode} (hb : p.byte? m.registers.pc = some op.code)
      (hlt : p.size < m.registers.pc.toNat + op.size) :
      Faulty p m (.truncatedInstruction m.registers.pc)
  | unaddressable {op : Opcode} {lo hi : UInt8} {address : UInt16}
      (hb : p.byte? m.registers.pc = some op.code) (hmode : op.mode = .memory)
      (hlo : p.bytes[m.registers.pc.toNat + 1]? = some lo)
      (hhi : p.bytes[m.registers.pc.toNat + 2]? = some hi)
      (haddress : address.toNat = lo.toNat + 256 * hi.toNat)
      (hle : m.memory.size ≤ address.toNat) :
      Faulty p m (.addressOutOfRange address m.memory.size)

theorem Faulty.inside (h : Faulty p m cause) : m.registers.pc.toNat < p.size := by
  cases h with
  | unassigned hb => exact Program.byte?_eq_some_lt hb
  | cutOff hb => exact Program.byte?_eq_some_lt hb
  | unaddressable hb => exact Program.byte?_eq_some_lt hb

/-- Two bytes after the opcode byte make an instruction with an operand word. -/
theorem decode_of_bytes {op : Opcode} {lo hi : UInt8} {pc : UInt16}
    (hb : p.byte? pc = some op.code) (hmode : op.mode = .memory)
    (hlo : p.bytes[pc.toNat + 1]? = some lo) (hhi : p.bytes[pc.toNat + 2]? = some hi) :
    p.decode pc = .ok { opcode := op, pc, operand := .word (Word.ofBytes lo hi) } := by
  have hw : Word.read? p.bytes (pc.toNat + 1) = some (Word.ofBytes lo hi) :=
    Word.read?_eq_some_iff.2 ⟨lo, hi, hlo, hhi, rfl⟩
  exact Program.decode_eq_ok_iff.2 ⟨rfl, hb, by simp [AddressMode.operand?, hmode, hw]⟩

theorem plan_of_faulty (h : Faulty p m cause) : m.plan p c = .error cause := by
  have hin := h.inside
  cases h with
  | unassigned hb hne =>
    exact plan_of_decode_error ((Program.decode_eq_error_iff hin).2 (.inl ⟨_, hb, hne, rfl⟩))
  | cutOff hb hlt =>
    exact plan_of_decode_error ((Program.decode_eq_error_iff hin).2 (.inr ⟨_, hb, hlt, rfl⟩))
  | @unaddressable op lo hi address hb hmode hlo hhi haddress hle =>
    have hword : address = Word.ofBytes lo hi := by
      apply UInt16.toNat_inj.1
      rw [haddress, Word.toNat_ofBytes]
    subst hword
    apply plan_of_effect_error (decode_of_bytes hb hmode hlo hhi)
    apply Instruction.effect_of_not_addressable
    intro ha
    exact absurd (ha hmode) (Nat.not_lt.2 hle)

theorem faulty_of_plan (hin : m.registers.pc.toNat < p.size) (h : m.plan p c = .error cause) :
    Faulty p m cause := by
  cases hd : p.decode m.registers.pc with
  | error cause' =>
    rw [plan_of_decode_error hd] at h
    cases h
    rcases (Program.decode_eq_error_iff hin).1 hd with ⟨code, hb, hne, rfl⟩ | ⟨op, hb, hlt, rfl⟩
    · exact .unassigned hb hne
    · exact .cutOff hb hlt
  | ok i =>
    cases he : i.effect m.registers m.memory c.next with
    | ok e => simp [plan_of_effect hd he] at h
    | error cause' =>
      rw [plan_of_effect_error hd he] at h
      cases h
      obtain ⟨hna, rfl⟩ := Instruction.effect_eq_error_iff.1 he
      obtain ⟨hmode, hle⟩ : i.opcode.mode = .memory ∧ m.memory.size ≤ i.word.toNat := by
        simpa [Instruction.Addressable] using hna
      obtain ⟨lo, hi, hlo, hhi, hop⟩ := Program.decode_word hd (.inr hmode)
      have hword : i.word = Word.ofBytes lo hi := by simp [Instruction.word, hop]
      refine .unaddressable (Program.byte?_of_decode hd) hmode hlo hhi ?_ hle
      rw [hword, Word.toNat_ofBytes]

theorem outcome_retire_ne_faulted {e : Effect} {pc : UInt16} {code : UInt8} :
    (m.retire p c e pc code).outcome ≠ .faulted cause := by
  rw [outcome_retire]
  split <;> nofun

theorem step_of_faulty (h : m.phase = .running) (hf : Faulty p m cause) :
    ∃ code, p.byte? m.registers.pc = some code ∧
      m.step p c =
        { machine := { m with phase := .halted (.fault cause) }
          console := c
          outcome := .faulted cause
          events := [.started m.registers.pc code, .faulted cause m.registers.pc] } := by
  obtain ⟨code, hb⟩ := Program.exists_byte? hf.inside
  exact ⟨code, hb, step_of_plan_error h hb (plan_of_faulty hf)⟩

theorem faulty_of_step (h : m.phase = .running) (ho : (m.step p c).outcome = .faulted cause) :
    Faulty p m cause := by
  cases hb : p.byte? m.registers.pc with
  | none => simp [step_of_outside h hb] at ho
  | some code =>
    apply faulty_of_plan (Program.byte?_eq_some_lt hb)
    cases hp : m.plan p c with
    | error cause' => simpa [step_of_plan_error h hb hp] using ho
    | ok planned =>
      simp only [step, h, hb, hp] at ho
      exact (outcome_retire_ne_faulted ho).elim

/-- A fault has exactly one of three causes, and a faulting step leaves registers, memory and
console as they were. -/
theorem step_faulted_iff (h : m.phase = .running) (cause : Fault) :
    ((m.step p c).outcome = .faulted cause ↔
      m.registers.pc.toNat < p.size ∧ Faulty p m cause) ∧
    (Faulty p m cause → ∃ code, p.byte? m.registers.pc = some code ∧
      m.step p c =
        { machine := { m with phase := .halted (.fault cause) }
          console := c
          outcome := .faulted cause
          events := [.started m.registers.pc code, .faulted cause m.registers.pc] }) := by
  refine ⟨⟨fun ho => ?_, fun ⟨_, hf⟩ => ?_⟩, step_of_faulty h⟩
  · have hf := faulty_of_step h ho
    exact ⟨hf.inside, hf⟩
  · obtain ⟨code, -, hs⟩ := step_of_faulty (c := c) h hf
    rw [hs]

/-- The cell past the end of a memory of two words. -/
theorem step_lsa_past_end :
    let p : Program := ⟨#[0xEA, 0x02, 0x02, 0x00]⟩
    let m : Machine :=
      { registers := { a := 7, pc := 1, status := .ofByte 0xFF, cycles := 2 }
        memory := Memory.zeroed 2
        phase := .running }
    let c : Console := { pending := [8] }
    let cause : Fault := .addressOutOfRange 2 2
    m.phase = .running ∧ Faulty p m cause ∧ (m.step p c).outcome = .faulted cause ∧
      ∃ code, p.byte? m.registers.pc = some code ∧
        m.step p c =
          { machine := { m with phase := .halted (.fault cause) }
            console := c
            outcome := .faulted cause
            events := [.started m.registers.pc code, .faulted cause m.registers.pc] } := by
  intro p m c cause
  have hf : Faulty p m cause :=
    @Faulty.unaddressable p m .lsa 2 0 2 rfl rfl rfl rfl rfl (by decide)
  have hs := step_faulted_iff (p := p) (m := m) (c := c) rfl cause
  exact ⟨rfl, hf, hs.1.2 ⟨by decide, hf⟩, hs.2 hf⟩

end WordMachine.Machine
