import Mathlib.Data.List.Infix
import WordMachine.Proofs.Lockstep
import WordMachine.Proofs.Traffic

/-! More memory: in a larger memory a run goes the same way, up to the step that found the smaller
memory too small. -/
namespace WordMachine

open Session Trace

variable {p : Program} {s s' : Session} {i : Instruction} {e : Effect} {r : Registers}
  {m m' : Memory} {a input : UInt16} {words words' n : Nat} {inputs : List UInt16}
  {config config' : Config}

namespace Memory

/-- The cells of `m` are the first cells of `m'`. -/
structure Within (m m' : Memory) : Prop where
  size_le : m.size ≤ m'.size
  cell_eq : ∀ {a : UInt16}, a.toNat < m.size → m'.cell a = m.cell a

theorem cell_zeroed : (zeroed words).cell a = 0 := by
  simp only [zeroed, cell, Array.getD_eq_getD_getElem?, Array.getElem?_replicate]
  split <;> rfl

theorem within_zeroed (h : words ≤ words') : (zeroed words).Within (zeroed words') where
  size_le := by
    rw [size_zeroed, size_zeroed]
    omega
  cell_eq _ := by rw [cell_zeroed, cell_zeroed]

/-- A store past the end of the smaller memory reaches none of its cells. -/
theorem Within.set (h : m.Within m') (a v : UInt16) : (m.set a v).Within (m'.set a v) where
  size_le := by
    rw [size_set, size_set]
    exact h.size_le
  cell_eq {b} hb := by
    rw [size_set] at hb
    by_cases hab : a = b
    · subst hab
      rw [cell_set hb, cell_set (Nat.lt_of_lt_of_le hb h.size_le)]
    · rw [cell_set_of_ne hab, cell_set_of_ne hab, h.cell_eq hb]

theorem Within.applyMemory (h : m.Within m') (e : Effect) :
    (e.applyMemory m).Within (e.applyMemory m') := by
  unfold Effect.applyMemory
  split
  · exact h
  · exact h.set ..

end Memory

/-- The size of memory decides whether there is an effect, and nothing about the effect. -/
theorem Instruction.effect_of_within (h : m.Within m') (ha : i.Addressable m) :
    i.effect r m' input = i.effect r m input := by
  cases hop : i.opcode
  case lsa | lsx | cmpc | ott | mul | mulm =>
    have hlt := ha (by rw [hop]; rfl)
    have hlt' := Nat.lt_of_lt_of_le hlt h.size_le
    simp only [effect, hop, reading_eq, if_pos hlt, if_pos hlt', h.cell_eq hlt]
  case sta | stx =>
    have hlt := ha (by rw [hop]; rfl)
    have hlt' := Nat.lt_of_lt_of_le hlt h.size_le
    simp only [effect, hop, store_eq, if_pos hlt, if_pos hlt']
  all_goals simp only [effect, hop]

/-- The machine has halted on an address that names no cell. -/
def Phase.OutOfRange (phase : Phase) : Prop :=
  ∃ address limit, phase.fault? = some (.addressOutOfRange address limit)

theorem Phase.OutOfRange.isHalted {phase : Phase} (h : phase.OutOfRange) :
    phase.isHalted = true := by
  obtain ⟨address, limit, hfault⟩ := h
  cases phase with
  | running => cases hfault
  | halted reason => rfl

namespace Session

/-- Session `s'` differs from `s` in nothing but having more memory behind the same cells. -/
structure FitsIn (s s' : Session) : Prop where
  registers : s'.machine.registers = s.machine.registers
  memory : s.machine.memory.Within s'.machine.memory
  phase : s'.machine.phase = s.machine.phase
  console : s'.console = s.console

theorem fitsIn_start (h : config.memoryWords ≤ config'.memoryWords) :
    (start inputs config).FitsIn (start inputs config') where
  registers := rfl
  memory := Memory.within_zeroed h
  phase := rfl
  console := rfl

theorem addressable_of_not_outOfRange (hl : s.Live p)
    (hd : p.decode s.machine.registers.pc = .ok i)
    (hn : ¬ (s.next p).machine.phase.OutOfRange) : i.Addressable s.machine.memory := by
  by_contra hna
  apply hn
  rw [next_of_effect_error hl.running hd (Instruction.effect_of_not_addressable hna)]
  exact ⟨_, _, rfl⟩

namespace FitsIn

theorem live (h : s.FitsIn s') (hl : s.Live p) : s'.Live p where
  running := h.phase.trans hl.running
  inside := by
    rw [h.registers]
    exact hl.inside

/-- Only a step that finds no cell in the smaller memory can tell the memories apart. -/
theorem inStep (h : s.FitsIn s') (hn : ¬ (s.next p).machine.phase.OutOfRange) :
    InStep p s s' where
  phase := h.phase
  pc := by rw [h.registers]
  effect := by
    intro hl
    cases hd : p.decode s.machine.registers.pc with
    | error cause => simp only [Session.effect, h.registers, hd]
    | ok i =>
      have ha := addressable_of_not_outOfRange hl hd hn
      simp only [Session.effect, h.registers, h.console, hd]
      exact Instruction.effect_of_within h.memory ha
  shown := by
    intro i e hs
    have ha := Instruction.addressable_of_effect hs.effect
    have heffect := (Instruction.effect_of_within h.memory ha).trans hs.effect
    rw [Machine.touchEvents_of_effect hs.effect, Machine.touchEvents_of_effect heffect]
    split
    case isTrue hmode =>
      have hlt : i.word.toNat < (e.applyMemory s.machine.memory).size := by
        rw [Machine.size_applyMemory]
        exact ha hmode
      rw [(h.memory.applyMemory e).cell_eq hlt]
    case isFalse => rfl

theorem next (h : s.FitsIn s') (hstep : InStep p s s') : (s.next p).FitsIn (s'.next p) := by
  have hphase := hstep.looksSame.phase
  rcases hstep.executes_or_stays with ⟨i, e, hs, hs'⟩ | ⟨hs, hs'⟩
  · refine ⟨?_, ?_, hphase, ?_⟩
    · rw [hs.registers_next, hs'.registers_next, h.registers]
    · rw [hs.memory_next, hs'.memory_next]
      exact h.memory.applyMemory e
    · rw [hs.console_next, hs'.console_next, h.console]
  · refine ⟨?_, ?_, hphase, ?_⟩
    · rw [hs.registers, hs'.registers, h.registers]
    · rw [hs.memory, hs'.memory]
      exact h.memory
    · rw [hs.console, hs'.console, h.console]

theorem sameReport (h : s.FitsIn s') : SameReport s s' where
  registers := h.registers
  phase := h.phase
  outputs := by rw [h.console]

end FitsIn

theorem not_outOfRange_next (h : ¬ ((next p)^[n + 1] s).machine.phase.OutOfRange) :
    ¬ (s.next p).machine.phase.OutOfRange := by
  intro hout
  apply h
  rw [Function.iterate_succ_apply, iterate_of_halted hout.isHalted]
  exact hout

/-- A larger memory stays unnoticed as long as the smaller one is large enough. -/
theorem coupling_fitsIn :
    Coupling p fun n s s' =>
      s.FitsIn s' ∧ ¬ ((Session.next p)^[n] s).machine.phase.OutOfRange where
  inStep h := h.1.inStep (not_outOfRange_next h.2)
  next h := ⟨h.1.next (h.1.inStep (not_outOfRange_next h.2)), h.2⟩

end Session

/-- What becomes of the run `small` when memory is larger. -/
structure RunResult.Outgrown (small large : RunResult) : Prop where
  same : (∀ address limit, small.error ≠ some (.addressOutOfRange address limit)) → large = small
  /-- The step that found no cell is taken again, from the same registers. -/
  resumed : ∀ address limit, small.error = some (.addressOutOfRange address limit) →
    ∃ k e e', small.trace.length = k + 1 ∧ small.trace[k]? = some e ∧
      e.error? = some (.addressOutOfRange address limit) ∧
      large.trace.take k = small.trace.take k ∧ large.trace[k]? = some e' ∧
      e'.step = e.step ∧ e'.opcode = e.opcode ∧ e'.before = e.before ∧
      small.outputs <+: large.outputs

theorem run_eq_of_memory_le (hbound : config'.maxSteps = config.maxSteps)
    (hle : config.memoryWords ≤ config'.memoryWords)
    (hn : ¬ (Session.final p inputs config).machine.phase.OutOfRange) :
    run p inputs config' = run p inputs config :=
  coupling_fitsIn.run_eq (fun h => h.1.sameReport) hbound ⟨fitsIn_start hle, hn⟩

/-- With more memory a run does the same until the smaller memory had no cell for it. -/
theorem run_of_memory_le (hbound : config'.maxSteps = config.maxSteps)
    (hle : config.memoryWords ≤ config'.memoryWords) :
    (run p inputs config).Outgrown (run p inputs config') where
  same := by
    intro hne
    refine run_eq_of_memory_le hbound hle ?_
    rintro ⟨address, limit, hfault⟩
    exact hne address limit ((run_eq p inputs config).2.2.2.1.trans hfault)
  resumed := by
    intro address limit herror
    obtain ⟨k, hlength, hk, hlive, e, he, hcause⟩ := exists_last_of_error herror
    -- before its last step the run had not faulted, so that so far the two went the same way
    have hn : ¬ ((next p)^[k] (start inputs config)).machine.phase.OutOfRange := by
      intro hout
      exact not_live_of_halted hout.isHalted hlive
    have hstart : (start inputs config).FitsIn (start inputs config') ∧
        ¬ ((next p)^[0 + k] (start inputs config)).machine.phase.OutOfRange := by
      rw [Nat.zero_add]
      exact ⟨fitsIn_start hle, hn⟩
    have hfits := (coupling_fitsIn.iterate k (n := 0) hstart).1
    have htake : (run p inputs config').trace.take k = (run p inputs config).trace.take k := by
      rw [(run_eq p inputs config).1, (run_eq p inputs config').1, Progress.take_entriesFrom,
        Progress.take_entriesFrom, hbound, Nat.min_eq_left (Nat.le_of_lt hk)]
      exact coupling_fitsIn.entriesFrom_eq (fun h => h.1.sameReport) 0 ⟨fitsIn_start hle, hn⟩
    have hlt : k < (run p inputs config').trace.length := by
      rw [length_trace]
      exact lt_liveSteps_of_live (hbound ▸ hk) (hfits.live hlive)
    obtain ⟨-, rfl⟩ := getElem?_trace.1 he
    refine ⟨k, _, _, hlength, he, hcause, htake, getElem?_trace.2 ⟨hlt, rfl⟩, rfl, ?_, ?_, ?_⟩
    · simp only [Entry.ofStep, hfits.registers]
    · exact hfits.registers
    · rw [outputs_run, outputs_run, Entry.flatMap_outputs_of_error hlength he hcause, ← htake]
      exact List.IsPrefix.flatMap (List.take_prefix k _) _

/-- A store past the end of two words, which is taken again where there are four, and for which
eight are no better than four. -/
theorem run_of_far_store :
    let p : Program := .ofList [0x05, 0x06, 0x00, 0x00, 0x01, 0x03, 0x00, 0x06, 0x03, 0x00]
    let two : Config := { memoryWords := 2 }
    let four : Config := { memoryWords := 4 }
    let eight : Config := { memoryWords := 8 }
    two.memoryWords ≤ four.memoryWords ∧ four.memoryWords ≤ eight.memoryWords ∧
      (run p [7] two).error = some (.addressOutOfRange 3 2) ∧
      (∃ e, (run p [7] four).trace[2]? = some e ∧ e.opcode = 0x01 ∧ e.before.pc = 4) ∧
      (run p [7] two).outputs <+: (run p [7] four).outputs ∧
      run p [7] eight = run p [7] four := by
  intro p two four eight
  have herror : (run p [7] two).error = some (.addressOutOfRange 3 2) := by decide +kernel
  have hlast : (run p [7] two).trace.map (fun e => (e.opcode, e.before.pc)) =
      [(0x05, 0), (0x06, 1), (0x01, 4)] := by decide +kernel
  have hnone : (run p [7] four).error = none := by decide +kernel
  have hsmall : (run p [7] two).Outgrown (run p [7] four) := run_of_memory_le rfl (by decide)
  have hlarge : (run p [7] four).Outgrown (run p [7] eight) := run_of_memory_le rfl (by decide)
  obtain ⟨k, e, e', hlength, he, -, -, he', -, hopcode, hbefore, houtputs⟩ :=
    hsmall.resumed 3 2 herror
  obtain rfl : k = 2 := by
    have hthree := congrArg List.length hlast
    rw [List.length_map, hlength] at hthree
    exact Nat.succ.inj hthree
  have hshown : some (e.opcode, e.before.pc) = some (0x01, 4) := by
    have hget := congrArg (·[2]?) hlast
    simpa [he] using hget
  simp only [Option.some.injEq, Prod.mk.injEq] at hshown
  refine ⟨by decide, by decide, herror, ⟨e', he', ?_, ?_⟩, houtputs, ?_⟩
  · rw [hopcode, hshown.1]
  · rw [hbefore, hshown.2]
  · exact hlarge.same (by simp [hnone])

end WordMachine
