import Mathlib.Data.List.Infix
import WordMachine.Proofs.Traffic

/-! One program under two step bounds: the run with the smaller bound is the beginning of the other
one, and it is all of it when the bound lets the program come to its end. -/
namespace WordMachine

open Session Trace

variable {p : Program} {s : Session} {inputs : List UInt16} {config : Config} {m n : Nat}

/-- What is left of the run `long` when it is stopped after `m` steps. -/
structure RunResult.CutOff (m : Nat) (long short : RunResult) : Prop where
  trace_eq : short.trace = long.trace.take (min m long.trace.length)
  outputs_begin : short.outputs <+: long.outputs
  whole : long.trace.length ≤ m → short = long
  /-- The run stops without an end of its own, where the longer one takes its next step. -/
  interrupted : m < long.trace.length → short.halted = false ∧ short.error = none ∧
    ∃ e, long.trace[m]? = some e ∧ short.final = e.before

/-- Steps beyond the last live one lead nowhere. -/
theorem Session.iterate_eq_of_liveSteps_le (h : s.Live p) (hmn : m ≤ n)
    (hle : liveSteps p n s ≤ m) : (next p)^[m] s = (next p)^[n] s := by
  have hsteps : liveSteps p m s = liveSteps p n s := by
    have hmin := liveSteps_min p m n s
    rwa [Nat.min_eq_left hmn, Nat.min_eq_right hle] at hmin
  rw [iterate_liveSteps h m, iterate_liveSteps h n, hsteps]

/-- A change of the bound does not change where a run starts. -/
theorem trace_withMaxSteps (p : Program) (inputs : List UInt16) (config : Config) (n : Nat) :
    (run p inputs (config.withMaxSteps n)).trace =
      Progress.entriesFrom p 0 n (start inputs config) :=
  (run_eq p inputs (config.withMaxSteps n)).1

theorem trace_eq_take (h : m ≤ n) :
    (run p inputs (config.withMaxSteps m)).trace =
      (run p inputs (config.withMaxSteps n)).trace.take m := by
  rw [trace_withMaxSteps, trace_withMaxSteps, Progress.take_entriesFrom, Nat.min_eq_left h]

/-- Further steps only add to what has been printed. -/
theorem outputs_mono (h : m ≤ n) :
    (run p inputs (config.withMaxSteps m)).outputs <+:
      (run p inputs (config.withMaxSteps n)).outputs := by
  rw [outputs_run, outputs_run, trace_eq_take h]
  exact List.IsPrefix.flatMap (List.take_prefix m _) _

/-- What a run reports of its last session is the same under two bounds that both let it end. -/
theorem final_of_liveSteps_le {s : Session} (hmn : m ≤ n) (hle : liveSteps p n s ≤ m)
    (hlive : s.Live p ↔ p.isEmpty = false) :
    ((next p)^[m] s).machine.registers = ((next p)^[n] s).machine.registers ∧
      ((next p)^[m] s).console = ((next p)^[n] s).console ∧
      ((next p)^[m] s).machine.phase.fault? = ((next p)^[n] s).machine.phase.fault? ∧
      (p.isEmpty || ((next p)^[m] s).machine.phase.isHalted) =
        (p.isEmpty || ((next p)^[n] s).machine.phase.isHalted) := by
  cases hempty : p.isEmpty with
  | false =>
    rw [iterate_eq_of_liveSteps_le (hlive.2 hempty) hmn hle]
    exact ⟨rfl, rfl, rfl, rfl⟩
  | true =>
    have hnot : ¬ s.Live p := by simp [hlive, hempty]
    obtain ⟨hregisters, -, hconsole, hfault⟩ := iterate_of_not_live hnot m
    obtain ⟨hregisters', -, hconsole', hfault'⟩ := iterate_of_not_live hnot n
    rw [hregisters, hregisters', hconsole, hconsole', hfault, hfault', Bool.true_or, Bool.true_or]
    exact ⟨rfl, rfl, rfl, rfl⟩

/-- A bound that a run does not reach does not matter. -/
theorem run_eq_of_length_le (h : m ≤ n)
    (hle : (run p inputs (config.withMaxSteps n)).trace.length ≤ m) :
    run p inputs (config.withMaxSteps m) = run p inputs (config.withMaxSteps n) := by
  obtain ⟨-, hfinal, houtputs, herror, hhalted⟩ := run_eq p inputs (config.withMaxSteps m)
  obtain ⟨-, hfinal', houtputs', herror', hhalted'⟩ := run_eq p inputs (config.withMaxSteps n)
  have htrace : (run p inputs (config.withMaxSteps m)).trace =
      (run p inputs (config.withMaxSteps n)).trace := by
    rw [trace_eq_take h, List.take_of_length_le hle]
  rw [length_trace] at hle
  obtain ⟨hregisters, hconsole, hfault, hstop⟩ := final_of_liveSteps_le h hle live_start_iff
  apply RunResult.ext
  · rfl
  · exact htrace
  · rw [hhalted, hhalted']
    exact hstop
  · rw [herror, herror']
    exact hfault
  · rw [houtputs, houtputs']
    exact congrArg (·.outputs.toList) hconsole
  · rw [hfinal, hfinal']
    exact hregisters

/-- A run that its bound cuts short is about to take the step that a longer run takes next. -/
theorem run_of_lt_length
    (hlt : m < (run p inputs (config.withMaxSteps n)).trace.length) :
    (run p inputs (config.withMaxSteps m)).halted = false ∧
      (run p inputs (config.withMaxSteps m)).error = none ∧
      ∃ e, (run p inputs (config.withMaxSteps n)).trace[m]? = some e ∧
        (run p inputs (config.withMaxSteps m)).final = e.before := by
  obtain ⟨-, hfinal, -, herror, hhalted⟩ := run_eq p inputs (config.withMaxSteps m)
  have hlive : ((next p)^[m] (start inputs (config.withMaxSteps n))).Live p := live_of_lt_trace hlt
  have hrun : (Session.final p inputs (config.withMaxSteps m)).machine.phase = .running :=
    hlive.running
  have hstart : (start inputs config).Live p := live_of_lt_trace (Nat.zero_lt_of_lt hlt)
  refine ⟨?_, ?_, _, getElem?_trace.2 ⟨hlt, rfl⟩, hfinal⟩
  · rw [hhalted, live_start_iff.1 hstart, hrun]
    rfl
  · rw [herror, hrun]
    rfl

/-- Lowering the step bound only cuts a run off. -/
theorem run_of_bound_le (h : m ≤ n) :
    RunResult.CutOff m (run p inputs (config.withMaxSteps n))
      (run p inputs (config.withMaxSteps m)) where
  trace_eq := by rw [trace_eq_take h, List.take_eq_take_iff, Nat.min_assoc, Nat.min_self]
  outputs_begin := outputs_mono h
  whole := run_eq_of_length_le h
  interrupted := run_of_lt_length

/-- An echo of one input, cut off before it prints and just as it has halted. -/
theorem run_of_echo :
    let p : Program := .ofList [0x05, 0x01, 0x00, 0x00, 0x06, 0x00, 0x00, 0x00]
    let config : Config := { memoryWords := 1 }
    let long := run p [5] (config.withMaxSteps 9)
    2 ≤ 9 ∧ long.trace.length = 4 ∧ long.outputs = [{ value := 5, address := 0 }] ∧
      run p [5] (config.withMaxSteps 4) = long ∧
      (run p [5] (config.withMaxSteps 2)).halted = false ∧
      ∃ e, long.trace[2]? = some e ∧ (run p [5] (config.withMaxSteps 2)).final = e.before := by
  intro p config long
  have hlength : long.trace.length = 4 := by decide +kernel
  have hfour : RunResult.CutOff 4 long (run p [5] (config.withMaxSteps 4)) :=
    run_of_bound_le (by decide)
  have htwo : RunResult.CutOff 2 long (run p [5] (config.withMaxSteps 2)) :=
    run_of_bound_le (by decide)
  obtain ⟨hhalted, -, hfinal⟩ := htwo.interrupted (by rw [hlength]; decide)
  refine ⟨by decide, hlength, by decide +kernel, ?_, hhalted, hfinal⟩
  exact hfour.whole (Nat.le_of_eq hlength)

end WordMachine
