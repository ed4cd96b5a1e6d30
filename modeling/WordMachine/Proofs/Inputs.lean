import Mathlib.Data.List.GetD
import WordMachine.Proofs.Lockstep
import WordMachine.Proofs.Traffic

/-! Console inputs: a run depends on as many of them as it has entries of `CTA`, and on nothing
that comes after those. -/
namespace WordMachine

attribute [ext] Machine

open Session Trace

variable {p : Program} {s s' : Session} {i : Instruction} {e : Effect} {r : Registers}
  {m : Memory} {c c' : Console} {input input' : UInt16} {xs ys : List UInt16} {config : Config}
  {number n : Nat}

def Trace.Entry.takesInput (entry : Entry) : Bool := entry.opcode == Opcode.cta.code

/-- How many inputs a run has taken; a zero that stood for a missing one counts. -/
def RunResult.inputsTaken (r : RunResult) : Nat := r.trace.countP (·.takesInput)

theorem Instruction.effect_of_not_cta (h : i.opcode ≠ .cta) :
    i.effect r m input' = i.effect r m input := by
  cases hop : i.opcode
  case cta => exact absurd hop h
  all_goals simp only [effect, hop]

theorem Console.next_eq_getD : c.next = c.pending.getD 0 0 := by
  unfold next
  cases c.pending <;> rfl

theorem Effect.outputs_applyConsole_congr (h : c'.outputs = c.outputs) :
    (e.applyConsole c').outputs = (e.applyConsole c).outputs := by
  unfold applyConsole
  cases e.output with
  | none => exact h
  | some output => simp only [Console.write, h]

namespace Session

/-- How many of the next `n` steps take an input. -/
def reads (p : Program) (n : Nat) (s : Session) : Nat :=
  (Progress.entriesFrom p 0 n s).countP (·.takesInput)

/-- How the entries are numbered does not matter. -/
theorem countP_entriesFrom :
    (Progress.entriesFrom p number n s).countP (·.takesInput) = reads p n s := by
  simp only [reads, Progress.entriesFrom, List.countP_map]
  rfl

theorem reads_of_not_live (h : ¬ s.Live p) : reads p n s = 0 := by
  rw [reads, Progress.entriesFrom_of_not_live h, List.countP_nil]

theorem reads_succ (h : s.Live p) :
    reads p (n + 1) s =
      reads p n (s.next p) + if (Entry.ofStep p 0 s).takesInput then 1 else 0 := by
  rw [reads, Progress.entriesFrom_succ h, List.countP_cons, countP_entriesFrom]

theorem takesInput_ofStep (hd : p.decode s.machine.registers.pc = .ok i) :
    (Entry.ofStep p number s).takesInput = true ↔ i.opcode = .cta := by
  rw [Entry.takesInput, Entry.opcode_ofStep number hd, beq_iff_eq]
  exact ⟨Opcode.code_injective, fun hop => by rw [hop]⟩

theorem reads_of_cta (h : s.Live p) (hd : p.decode s.machine.registers.pc = .ok i)
    (hop : i.opcode = .cta) : reads p (n + 1) s = reads p n (s.next p) + 1 := by
  rw [reads_succ h, if_pos ((takesInput_ofStep hd).2 hop)]

theorem reads_next_le (p : Program) (n : Nat) (s : Session) :
    reads p n (s.next p) ≤ reads p (n + 1) s := by
  by_cases h : s.Live p
  · rw [reads_succ h]
    exact Nat.le_add_right ..
  · have hnext : ¬ (s.next p).Live p := fun hl => h (live_of_live_next hl)
    rw [reads_of_not_live hnext]
    exact Nat.zero_le _

/-- The sessions differ at most in what the console has to answer after `count` more inputs. -/
structure SameInputs (count : Nat) (s s' : Session) : Prop where
  machine : s'.machine = s.machine
  outputs : s'.console.outputs = s.console.outputs
  inputs : ∀ j < count, s'.console.pending.getD j 0 = s.console.pending.getD j 0

namespace SameInputs

theorem sameReport {count : Nat} (h : SameInputs count s s') : SameReport s s' where
  registers := by rw [h.machine]
  phase := by rw [h.machine]
  outputs := h.outputs

theorem next_eq {count : Nat} (h : SameInputs count s s') (hpos : 0 < count) :
    s'.console.next = s.console.next := by
  rw [Console.next_eq_getD, Console.next_eq_getD]
  exact h.inputs 0 hpos

variable (h : SameInputs (reads p (n + 1) s) s s')
include h

/-- No instruction but `CTA` asks the console, and where one does the first inputs agree. -/
theorem inStep : InStep p s s' where
  phase := by rw [h.machine]
  pc := by rw [h.machine]
  effect := by
    intro hl
    cases hd : p.decode s.machine.registers.pc with
    | error cause => simp only [Session.effect, h.machine, hd]
    | ok i =>
      simp only [Session.effect, h.machine, hd]
      by_cases hop : i.opcode = .cta
      · rw [h.next_eq (by rw [reads_of_cta hl hd hop]; exact Nat.succ_pos _)]
      · exact Instruction.effect_of_not_cta hop
  shown := by
    intro i e _
    rw [h.machine]

theorem inputs_next (hs : s.Executes p i e) (hs' : s'.Executes p i e) :
    ∀ j < reads p n (s.next p),
      (s'.next p).console.pending.getD j 0 = (s.next p).console.pending.getD j 0 := by
  intro j hj
  rw [hs.console_next, hs'.console_next, Effect.pending_applyConsole,
    Effect.pending_applyConsole, Instruction.pending_consoleAfter,
    Instruction.pending_consoleAfter]
  by_cases hop : i.opcode = .cta
  · -- both consoles have dropped an input, on which they agreed
    have hlt : j + 1 < reads p (n + 1) s := by
      rw [reads_of_cta hs.live hs.decode hop]
      exact Nat.succ_lt_succ hj
    have hinput := h.inputs (j + 1) hlt
    rw [if_pos hop, if_pos hop]
    simpa using hinput
  · rw [if_neg hop, if_neg hop]
    exact h.inputs j (Nat.lt_of_lt_of_le hj (reads_next_le p n s))

theorem next : SameInputs (reads p n (s.next p)) (s.next p) (s'.next p) := by
  have hphase := h.inStep.looksSame.phase
  rcases h.inStep.executes_or_stays with ⟨i, e, hs, hs'⟩ | ⟨hs, hs'⟩
  · refine ⟨?_, ?_, h.inputs_next hs hs'⟩
    · apply Machine.ext
      · rw [hs.registers_next, hs'.registers_next, h.machine]
      · rw [hs.memory_next, hs'.memory_next, h.machine]
      · exact hphase
    · rw [hs.console_next, hs'.console_next]
      apply Effect.outputs_applyConsole_congr
      rw [Instruction.outputs_consoleAfter, Instruction.outputs_consoleAfter, h.outputs]
  · refine ⟨?_, ?_, ?_⟩
    · apply Machine.ext
      · rw [hs.registers, hs'.registers, h.machine]
      · rw [hs.memory, hs'.memory, h.machine]
      · exact hphase
    · rw [hs.console, hs'.console, h.outputs]
    · intro j hj
      rw [hs.console, hs'.console]
      exact h.inputs j (Nat.lt_of_lt_of_le hj (reads_next_le p n s))

end SameInputs

/-- Inputs that no step takes stay unnoticed. -/
theorem coupling_sameInputs : Coupling p fun n s s' => SameInputs (reads p n s) s s' where
  inStep h := h.inStep
  next h := h.next

end Session

theorem inputsTaken_run :
    (run p xs config).inputsTaken = reads p config.maxSteps (start xs config) := by
  rw [RunResult.inputsTaken, (run_eq p xs config).1, countP_entriesFrom]

theorem run_eq_of_inputs
    (h : ∀ j < (run p xs config).inputsTaken, ys.getD j 0 = xs.getD j 0) :
    run p ys config = run p xs config := by
  rw [inputsTaken_run] at h
  have hstart : SameInputs (reads p config.maxSteps (start xs config)) (start xs config)
      (start ys config) := ⟨rfl, rfl, h⟩
  exact coupling_sameInputs.run_eq (fun h => h.sameReport) rfl hstart

/-- A run depends on the inputs that it takes and on no others. -/
theorem run_of_inputs_taken (p : Program) (xs : List UInt16) (config : Config) :
    (∀ ys : List UInt16,
      (∀ j < (run p xs config).inputsTaken, ys.getD j 0 = xs.getD j 0) →
        run p ys config = run p xs config) ∧
    (∀ n, run p (xs ++ List.replicate n 0) config = run p xs config) ∧
    ((run p xs config).inputsTaken ≤ xs.length → ∀ zs,
      run p (xs.take (run p xs config).inputsTaken ++ zs) config = run p xs config) := by
  refine ⟨fun ys => run_eq_of_inputs, fun n => run_eq_of_inputs fun j _ => ?_,
    fun hle zs => run_eq_of_inputs fun j hj => ?_⟩
  · rcases Nat.lt_or_ge j xs.length with hlt | hge
    · rw [List.getD_append _ _ _ _ hlt]
    · rw [List.getD_append_right _ _ _ _ hge, List.getD_eq_default _ _ hge,
        List.getD_eq_getElem?_getD, List.getElem?_getD_replicate_default_eq]
  · have hlt : j < (xs.take (run p xs config).inputsTaken).length := by
      rw [List.length_take]
      omega
    rw [List.getD_append _ _ _ _ hlt]
    simp [List.getD_eq_getElem?_getD, hj]

/-- Two inputs are taken, and the second of them is missing. -/
theorem run_of_two_inputs :
    let p : Program := .ofList [0x05, 0x01, 0x00, 0x00, 0x05, 0x09, 0x01, 0x00]
    (run p [3] {}).inputsTaken = 2 ∧ (∀ j < 2, ([3, 0, 9] : List UInt16).getD j 0 = [3].getD j 0) ∧
      run p [3, 0, 9] {} = run p [3] {} ∧ run p [3, 0, 0, 0] {} = run p [3] {} := by
  intro p
  have htaken : (run p [3] {}).inputsTaken = 2 := by decide +kernel
  have hagree : ∀ j < 2, ([3, 0, 9] : List UInt16).getD j 0 = [3].getD j 0 := by decide
  obtain ⟨hinputs, hzeros, -⟩ := run_of_inputs_taken p [3] {}
  exact ⟨htaken, hagree, hinputs [3, 0, 9] (by rwa [htaken]), hzeros 3⟩

end WordMachine
