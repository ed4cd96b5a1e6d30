import WordMachine.Proofs.TraceShape

/-! Memory and console told by the trace: the cells that the entries show, stored one after another,
are the memory that the run has reached, and the console has answered and printed what they show. -/
namespace WordMachine

namespace Memory

variable {m m' : Memory} {a b v : UInt16}

/-- The memory after these cells have been stored in it, in this order. -/
def replay (m : Memory) (cells : List Trace.Cell) : Except Fault Memory :=
  cells.foldlM (fun m cell => m.write cell.address cell.value) m

theorem ext_cells (h : m.cells = m'.cells) : m = m' := by
  cases m
  cases m'
  cases h
  rfl

theorem write_of_lt (h : a.toNat < m.size) : m.write a v = .ok (m.set a v) := by
  simp only [size] at h
  simp [write, h]

theorem cell_set (h : a.toNat < m.size) : (m.set a v).cell a = v := by
  simp only [size] at h
  simp [set, cell, h]

theorem cell_set_of_ne (h : a ≠ b) : (m.set a v).cell b = m.cell b := by
  have hne : a.toNat ≠ b.toNat := fun heq => h (UInt16.toNat_inj.1 heq)
  simp [set, cell, Array.getElem?_setIfInBounds_ne hne]

theorem set_cell (m : Memory) (a : UInt16) : m.set a (m.cell a) = m := by
  apply ext_cells
  apply Array.ext_getElem?
  intro k
  by_cases h : a.toNat = k
  · subst h
    by_cases hlt : a.toNat < m.cells.size
    · simp [set, cell, hlt]
    · simp [set, hlt]
  · simp [set, Array.getElem?_setIfInBounds_ne h]

theorem replay_append {xs ys : List Trace.Cell} (h : m.replay xs = .ok m') :
    m.replay (xs ++ ys) = m'.replay ys := by
  unfold replay at *
  rw [List.foldlM_append, h]
  rfl

theorem replay_singleton (h : a.toNat < m.size) :
    m.replay [{ address := a, value := v }] = .ok (m.set a v) := by
  unfold replay
  simp only [List.foldlM_cons, List.foldlM_nil, write_of_lt h]
  rfl

end Memory

namespace Effect

variable {e : Effect} {c : Console}

theorem outputs_applyConsole :
    (e.applyConsole c).outputs.toList = c.outputs.toList ++ e.output.toList := by
  unfold applyConsole
  cases e.output with
  | none => simp
  | some output => simp [Console.write]

theorem pending_applyConsole : (e.applyConsole c).pending = c.pending := by
  unfold applyConsole
  split <;> rfl

end Effect

namespace Instruction

variable {i : Instruction} {r : Registers} {mem : Memory} {input : UInt16} {e : Effect}

theorem outputs_consoleAfter {c : Console} : (i.consoleAfter c).outputs = c.outputs := by
  unfold consoleAfter
  split <;> rfl

theorem pending_consoleAfter {c : Console} :
    (i.consoleAfter c).pending = if i.opcode = .cta then c.pending.tail else c.pending := by
  simp only [consoleAfter, Opcode.readsConsole, beq_iff_eq]
  split <;> rfl

/-- Only `OTT` writes to the console, and it writes the cell that it names. -/
theorem output_of_effect (h : i.effect r mem input = .ok e) :
    e.output = if i.opcode = .ott then some { value := mem.cell i.word, address := i.word }
      else none := by
  cases hop : i.opcode <;> simp only [effect, hop] at h
  case lsa | lsx | cmpc | ott | mul | mulm =>
    obtain ⟨-, rfl⟩ := reading_eq_ok_iff.1 h
    rfl
  case sta | stx =>
    obtain ⟨-, rfl⟩ := store_eq_ok_iff.1 h
    rfl
  case beq | bne | bcs | bcc | bmi | bpl | bvs | bvc =>
    cases h
    unfold branch
    split <;> rfl
  all_goals
    cases h
    rfl

/-- What `OTT` shows of memory it has not changed. -/
theorem memoryWrite_of_ott (hop : i.opcode = .ott) (h : i.effect r mem input = .ok e) :
    e.memoryWrite = none := by
  simp only [effect, hop] at h
  obtain ⟨-, rfl⟩ := reading_eq_ok_iff.1 h
  rfl

/-- `CTA` loads the input. -/
theorem a_of_cta (hop : i.opcode = .cta) (h : i.effect r mem input = .ok e) :
    (e.applyRegisters r).a = input := by
  simp only [effect, hop] at h
  cases h
  rfl

/-- Storing the touched cell with the value that it has afterwards is all an effect does to
memory. -/
theorem set_touched (h : i.effect r mem input = .ok e) (hmode : i.opcode.mode = .memory) :
    mem.set i.word ((e.applyMemory mem).cell i.word) = e.applyMemory mem := by
  have htouched := (yields_of_effect h).touched
  have hlt := addressable_of_effect h hmode
  rw [if_pos hmode] at htouched
  cases hw : e.memoryWrite with
  | none => simp only [Effect.applyMemory, hw, Memory.set_cell]
  | some write =>
    obtain ⟨a, v⟩ := write
    obtain rfl : a = i.word := by simpa [Effect.touched?, hw] using htouched
    simp only [Effect.applyMemory, hw, Memory.cell_set hlt]

theorem applyMemory_of_untouched (h : i.effect r mem input = .ok e)
    (hmode : i.opcode.mode ≠ .memory) : e.applyMemory mem = mem := by
  have htouched := (yields_of_effect h).touched
  rw [if_neg hmode] at htouched
  cases hw : e.memoryWrite with
  | none => simp only [Effect.applyMemory, hw]
  | some write => simp [Effect.touched?, hw] at htouched

end Instruction

/-- An instruction that uses memory shows the cell that it names, and no other one shows any. -/
theorem Machine.touchEvents_of_effect {i : Instruction} {m : Machine} {r : Registers}
    {input : UInt16} {e : Effect} (h : i.effect r m.memory input = .ok e) :
    (e.apply m).touchEvents e =
      if i.opcode.mode = .memory then
        [.touched i.word ((e.applyMemory m.memory).cell i.word) e.memoryWrite.isSome]
      else [] := by
  have htouched := (Instruction.yields_of_effect h).touched
  split
  case isTrue hmode =>
    rw [if_pos hmode] at htouched
    have hlt : i.word.toNat < (e.apply m).memory.size := by
      change _ < (e.applyMemory m.memory).size
      rw [Machine.size_applyMemory]
      exact Instruction.addressable_of_effect h hmode
    simp only [Machine.touchEvents, htouched, Memory.read_of_lt hlt]
    rfl
  case isFalse hmode =>
    rw [if_neg hmode] at htouched
    simp only [Machine.touchEvents, htouched]

namespace Trace

/-- The cells that an effect shows: the one it touched, with its value now. -/
theorem cells_touchEvents {i : Instruction} {m : Machine} {input : UInt16} {e : Effect}
    (h : i.effect m.registers m.memory input = .ok e) :
    ((e.apply m).touchEvents e).filterMap Cell.ofEvent? =
      if i.opcode.mode = .memory then
        [{ address := i.word, value := (e.applyMemory m.memory).cell i.word }]
      else [] := by
  rw [Machine.touchEvents_of_effect h]
  split <;> rfl

namespace Entry

/-- The step used memory: its opcode is one that does, and it did not fault. -/
def Touches (entry : Entry) : Prop :=
  entry.error? = none ∧ ∃ op : Opcode, op.code = entry.opcode ∧ op.mode = .memory

/-- What the step printed: the cells that an `OTT` shows. -/
def outputs (entry : Entry) : List Output :=
  if entry.opcode = Opcode.ott.code ∧ entry.error? = none then
    entry.cells.map fun cell => { value := cell.value, address := cell.address }
  else []

/-- An entry that faulted has printed nothing. -/
theorem flatMap_outputs_of_error {t : List Entry} {e : Entry} {cause : Fault} {k : Nat}
    (hlength : t.length = k + 1) (he : t[k]? = some e) (herror : e.error? = some cause) :
    t.flatMap (·.outputs) = (t.take k).flatMap (·.outputs) := by
  have hsplit := List.take_of_length_le (Nat.le_of_eq hlength)
  rw [List.take_add_one, he] at hsplit
  have hnone : e.outputs = [] := by simp [Entry.outputs, herror]
  conv_lhs => rw [← hsplit]
  simp [hnone]

/-- What an entry tells of the step that led from session `s` to the next one. -/
structure Accounts (p : Program) (s : Session) (entry : Entry) : Prop where
  shown : entry.Touches → ∃ address value,
    Word.read? p.bytes (entry.before.pc.toNat + 1) = some address ∧
      entry.cells = [{ address, value }]
  hidden : ¬ entry.Touches → entry.cells = []
  memory : s.machine.memory.replay entry.cells = .ok (s.next p).machine.memory
  printed : (s.next p).console.outputs.toList = s.console.outputs.toList ++ entry.outputs
  taken : entry.opcode = Opcode.cta.code →
    entry.after?.map (·.a) = some (s.console.pending.headD 0) ∧
      (s.next p).console.pending = s.console.pending.tail
  waiting : entry.opcode ≠ Opcode.cta.code → (s.next p).console.pending = s.console.pending

end Entry

end Trace

namespace Program

variable {p : Program} {pc : UInt16} {op : Opcode}

theorem decode_of_implied (hb : p.byte? pc = some op.code) (hmode : op.mode = .implied) :
    p.decode pc = .ok { opcode := op, pc, operand := .none } :=
  decode_eq_ok_iff.2 ⟨rfl, hb, by simp [hmode, AddressMode.operand?]⟩

theorem read?_of_decode {i : Instruction} (h : p.decode pc = .ok i)
    (hmode : i.opcode.mode = .memory) : Word.read? p.bytes (pc.toNat + 1) = some i.word := by
  obtain ⟨lo, hi, hlo, hhi, hop⟩ := decode_word h (.inr hmode)
  exact Word.read?_eq_some_iff.2 ⟨lo, hi, hlo, hhi, by simp [Instruction.word, hop]⟩

end Program

namespace Session

variable {p : Program} {s : Session}

/-- A live step has an effect, or else it faults; an instruction without an operand never does. -/
theorem Live.effect_or_fault (h : s.Live p) :
    (∃ i e, p.decode s.machine.registers.pc = .ok i ∧
      i.effect s.machine.registers s.machine.memory s.console.next = .ok e) ∨
    ((∀ op : Opcode, p.byte? s.machine.registers.pc = some op.code → op.mode ≠ .implied) ∧
      ∃ cause code, s.stepped p =
        { machine := s.machine.halt (.fault cause), console := s.console
          outcome := .faulted cause
          events := [.started s.machine.registers.pc code,
            .faulted cause s.machine.registers.pc] }) := by
  obtain ⟨-, code, -, hb, -⟩ := h.step
  cases hd : p.decode s.machine.registers.pc with
  | error cause =>
    refine .inr ⟨?_, cause, code,
      Machine.step_of_plan_error h.running hb (Machine.plan_of_decode_error hd)⟩
    intro op hop hmode
    rw [Program.decode_of_implied hop hmode] at hd
    cases hd
  | ok i =>
    cases he : i.effect s.machine.registers s.machine.memory s.console.next with
    | ok e => exact .inl ⟨i, e, rfl, he⟩
    | error cause =>
      refine .inr ⟨?_, cause, code,
        Machine.step_of_plan_error h.running hb (Machine.plan_of_effect_error hd he)⟩
      intro op hop hmode
      rw [Program.decode_of_implied hop hmode] at hd
      cases hd
      have hna := (Instruction.effect_eq_error_iff.1 he).1
      refine hna fun hmem => ?_
      rw [hmode] at hmem
      cases hmem

end Session

namespace Trace.Entry

open Session

variable {p : Program} {s : Session} (number : Nat)

theorem accounts_of_fault {cause : Fault} {code : UInt8}
    (hop : ∀ op : Opcode, p.byte? s.machine.registers.pc = some op.code → op.mode ≠ .implied)
    (h : s.Live p)
    (hs : s.stepped p =
      { machine := s.machine.halt (.fault cause), console := s.console
        outcome := .faulted cause
        events := [.started s.machine.registers.pc code,
          .faulted cause s.machine.registers.pc] }) :
    (ofStep p number s).Accounts p s := by
  have herror : (ofStep p number s).error? = some cause := by
    simp only [ofStep, hs, Ending.ofOutcome, error?]
  have hcells : (ofStep p number s).cells = [] := by
    simp only [ofStep, hs]
    rfl
  have hnext : s.next p = { machine := s.machine.halt (.fault cause), console := s.console } := by
    rw [next, hs]
  constructor
  · rintro ⟨hnone, -⟩
    simp [herror] at hnone
  · intro _
    exact hcells
  · rw [hcells, hnext]
    rfl
  · simp [hnext, outputs, herror]
  · intro hcta
    have hb := byte?_ofStep number h
    rw [hcta] at hb
    exact absurd rfl (hop .cta hb)
  · intro _
    rw [hnext]

section Effects

variable {i : Instruction} {e : Effect} (h : s.Live p)
  (hd : p.decode s.machine.registers.pc = .ok i)
  (he : i.effect s.machine.registers s.machine.memory s.console.next = .ok e)
include hd

theorem opcode_ofStep : (ofStep p number s).opcode = i.opcode.code := by
  simp only [ofStep, Program.byte?_of_decode hd, Option.getD_some]

include h he

theorem error?_ofStep : (ofStep p number s).error? = none := by
  rw [(outcome_ofStep number h).1, (next_of_effect h.running hd he).2.2.1]

theorem cells_ofStep : (ofStep p number s).cells =
    if i.opcode.mode = .memory then
      [{ address := i.word, value := (e.applyMemory s.machine.memory).cell i.word }]
    else [] := by
  have hs : s.stepped p = _ := Machine.step_of_effect h.running hd he
  rw [← cells_touchEvents he]
  simp only [ofStep, hs, Machine.events_retire]
  simp [List.filterMap_cons, Cell.ofEvent?]

theorem touches_ofStep_iff : (ofStep p number s).Touches ↔ i.opcode.mode = .memory := by
  simp only [Touches, error?_ofStep number h hd he, opcode_ofStep number hd, true_and]
  constructor
  · rintro ⟨op, hcode, hmode⟩
    rwa [← Opcode.code_injective hcode]
  · intro hmode
    exact ⟨_, rfl, hmode⟩

theorem accounts_of_effect : (ofStep p number s).Accounts p s := by
  obtain ⟨hregisters, hmemory, -, hconsole⟩ := next_of_effect h.running hd he
  have hopcode := opcode_ofStep number hd
  have herror := error?_ofStep number h hd he
  have hcells := cells_ofStep number h hd he
  have htouches := touches_ofStep_iff number h hd he
  constructor
  · intro ht
    have hmode := htouches.1 ht
    rw [hcells, if_pos hmode]
    exact ⟨_, _, Program.read?_of_decode hd hmode, rfl⟩
  · intro ht
    rw [hcells, if_neg (fun hmode => ht (htouches.2 hmode))]
  · rw [hcells, hmemory]
    split
    case isTrue hmode =>
      rw [Memory.replay_singleton (Instruction.addressable_of_effect he hmode),
        Instruction.set_touched he hmode]
    case isFalse hmode =>
      rw [Instruction.applyMemory_of_untouched he hmode]
      rfl
  · rw [hconsole, Effect.outputs_applyConsole, Instruction.outputs_consoleAfter,
      Instruction.output_of_effect he, outputs, hopcode]
    by_cases hott : i.opcode = .ott
    · have hmode : i.opcode.mode = .memory := by rw [hott]; rfl
      have hkept : e.applyMemory s.machine.memory = s.machine.memory := by
        simp only [Effect.applyMemory, Instruction.memoryWrite_of_ott hott he]
      rw [if_pos hott, if_pos ⟨by rw [hott], herror⟩, hcells, if_pos hmode, hkept]
      rfl
    · rw [if_neg hott, if_neg fun hcode => hott (Opcode.code_injective hcode.1)]
      rfl
  · intro hcta
    have hop : i.opcode = .cta := Opcode.code_injective (hopcode.symm.trans hcta)
    rw [after?_ofStep number h herror, hregisters, hconsole, Effect.pending_applyConsole,
      Instruction.pending_consoleAfter, if_pos hop, Option.map_some, Instruction.a_of_cta hop he]
    exact ⟨rfl, rfl⟩
  · intro hcta
    have hop : i.opcode ≠ .cta := fun hop => hcta (by rw [hopcode, hop])
    rw [hconsole, Effect.pending_applyConsole, Instruction.pending_consoleAfter, if_neg hop]

end Effects

/-- Every live step does to memory and console what its entry tells. -/
theorem accounts_ofStep (h : s.Live p) : (ofStep p number s).Accounts p s := by
  rcases h.effect_or_fault with ⟨i, e, hd, he⟩ | ⟨hop, cause, code, hs⟩
  · exact accounts_of_effect number h hd he
  · exact accounts_of_fault number hop h hs

end Trace.Entry

namespace Progress

open Session Trace

variable {p : Program} {number n j : Nat} {s : Session} {e : Entry}

/-- By induction on the number of steps; after the last live step memory stays as it is. -/
theorem replay_entriesFrom (p : Program) (number n : Nat) (s : Session) :
    s.machine.memory.replay ((entriesFrom p number n s).flatMap (·.cells)) =
      .ok ((next p)^[n] s).machine.memory := by
  induction n generalizing number s with
  | zero => rfl
  | succ n ih =>
    by_cases h : s.Live p
    · have haccounts := Entry.accounts_ofStep number h
      rw [entriesFrom_succ h, List.flatMap_cons, Memory.replay_append haccounts.memory, ih]
      rfl
    · rw [entriesFrom_of_not_live h, (iterate_of_not_live h (n + 1)).2.1]
      rfl

theorem outputs_entriesFrom (p : Program) (number n : Nat) (s : Session) :
    ((next p)^[n] s).console.outputs.toList =
      s.console.outputs.toList ++ (entriesFrom p number n s).flatMap (·.outputs) := by
  induction n generalizing number s with
  | zero => simp [entriesFrom, liveSteps]
  | succ n ih =>
    by_cases h : s.Live p
    · have haccounts := Entry.accounts_ofStep number h
      rw [entriesFrom_succ h, List.flatMap_cons, ← List.append_assoc, ← haccounts.printed,
        Function.iterate_succ_apply, ih (number + 1)]
    · rw [entriesFrom_of_not_live h, (iterate_of_not_live h (n + 1)).2.2.1]
      simp

/-- The entries that take an input take the pending inputs in turn, and zeros after them. -/
theorem taken_entriesFrom
    (h : ((entriesFrom p number n s).filter (·.opcode == Opcode.cta.code))[j]? = some e) :
    e.after?.map (·.a) = some (s.console.pending.getD j 0) := by
  induction n generalizing number s j with
  | zero => simp [entriesFrom, liveSteps] at h
  | succ n ih =>
    by_cases hl : s.Live p
    · have haccounts := Entry.accounts_ofStep number hl
      rw [entriesFrom_succ hl, List.filter_cons] at h
      by_cases hcta : (Entry.ofStep p number s).opcode = Opcode.cta.code
      · obtain ⟨hafter, hpending⟩ := haccounts.taken hcta
        rw [if_pos (beq_iff_eq.2 hcta)] at h
        cases j with
        | zero =>
          cases h
          rw [hafter]
          cases s.console.pending <;> rfl
        | succ j =>
          rw [List.getElem?_cons_succ] at h
          rw [ih h, hpending]
          cases s.console.pending <;> rfl
      · rw [if_neg (fun heq => hcta (beq_iff_eq.1 heq))] at h
        rw [ih h, haccounts.waiting hcta]
    · rw [entriesFrom_of_not_live hl] at h
      cases h

end Progress

/-- What the trace of a run tells of memory and console. -/
structure RunResult.Accounts (p : Program) (inputs : List UInt16) (config : Config)
    (r : RunResult) : Prop where
  /-- The opcode of an entry is the byte that its step began at. -/
  fetched : ∀ e ∈ r.trace, p.byte? e.before.pc = some e.opcode
  /-- A step that uses memory shows the cell that its operand word names. -/
  shown : ∀ e ∈ r.trace, e.Touches → ∃ address value,
    Word.read? p.bytes (e.before.pc.toNat + 1) = some address ∧ e.cells = [{ address, value }]
  hidden : ∀ e ∈ r.trace, ¬ e.Touches → e.cells = []
  /-- The cells of the first entries, stored in zeroed memory, are memory after as many steps. -/
  memory : ∀ k, (Memory.zeroed config.memoryWords).replay ((r.trace.take k).flatMap (·.cells)) =
    .ok (Machine.steps p (min k config.maxSteps) (.fresh config) (.ofInputs inputs) none).1.memory
  printed : r.outputs = r.trace.flatMap (·.outputs)
  /-- Each `CTA` loads the next input, or zero when there is none left. -/
  taken : ∀ (j : Nat) (e : Trace.Entry),
    (r.trace.filter (·.opcode == Opcode.cta.code))[j]? = some e →
      e.after?.map (·.a) = some (inputs.getD j 0)

open Session Trace

variable {p : Program} {inputs : List UInt16} {config : Config}

theorem outputs_run :
    (run p inputs config).outputs = (run p inputs config).trace.flatMap (·.outputs) := by
  obtain ⟨htrace, -, houtputs, -⟩ := run_eq p inputs config
  rw [houtputs, htrace, Session.final, Progress.outputs_entriesFrom p 0]
  rfl

/-- Memory and console traffic of a run can be told from its trace. -/
theorem run_accounts (p : Program) (inputs : List UInt16) (config : Config) :
    (run p inputs config).Accounts p inputs config := by
  have htrace := (run_eq p inputs config).1
  refine ⟨?_, ?_, ?_, ?_, outputs_run, ?_⟩
  · intro e he
    obtain ⟨k, s, -, hlive, rfl⟩ := exists_of_mem_trace he
    exact Entry.byte?_ofStep k hlive
  · intro e he
    obtain ⟨k, s, -, hlive, rfl⟩ := exists_of_mem_trace he
    exact (Entry.accounts_ofStep k hlive).shown
  · intro e he
    obtain ⟨k, s, -, hlive, rfl⟩ := exists_of_mem_trace he
    exact (Entry.accounts_ofStep k hlive).hidden
  · intro k
    have hsteps := steps_eq_iterate p (min k config.maxSteps) (start inputs config) none
    rw [htrace, Progress.take_entriesFrom]
    refine (Progress.replay_entriesFrom p 0 _ (start inputs config)).trans ?_
    rw [← hsteps.1]
    rfl
  · intro j e he
    rw [htrace] at he
    exact Progress.taken_entriesFrom he

end WordMachine
