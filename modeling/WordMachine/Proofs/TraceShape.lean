import WordMachine.Proofs.Tracing

/-! The shape of a trace: entries follow on one another, and only the last of them can tell how the
run ended. -/
namespace WordMachine

/-- What a run of program `p` of at most `bound` steps and its trace have to do with one another. -/
structure RunResult.Coherent (p : Program) (bound : Nat) (r : RunResult) : Prop where
  length_le : r.trace.length ≤ bound
  numbered : ∀ (k : Nat) (e : Trace.Entry), r.trace[k]? = some e → e.step = k
  fetched : ∀ e ∈ r.trace,
    e.before.pc.toNat < p.size ∧ p.bytes[e.before.pc.toNat]? = some e.opcode
  first : ∀ e, r.trace[0]? = some e →
    e.before = { a := 0, x := 0, y := 0, pc := 0, sp := 0, status := .ofByte 0, cycles := 0 }
  linked : ∀ (k : Nat) (e e' : Trace.Entry), r.trace[k]? = some e → r.trace[k + 1]? = some e' →
    e.after? = some e'.before ∧ e.halted = false ∧ e.error? = none
  /-- An entry has registers after its step or a fault, and never both. -/
  exclusive : ∀ e ∈ r.trace, e.after?.isSome = !e.error?.isSome
  last : ∀ e, r.trace.getLast? = some e →
    e.error? = r.error ∧ e.after?.getD e.before = r.final
  halted_iff : r.halted = true ↔
    p.isEmpty = true ∨ ∃ e, r.trace.getLast? = some e ∧ e.halted = true
  unfinished : r.halted = false → r.error = none ∧ r.trace.length = bound

open Session

namespace Trace.Entry

variable {p : Program} {s : Session} (number : Nat)

theorem byte?_ofStep (h : s.Live p) :
    p.byte? (ofStep p number s).before.pc = some (ofStep p number s).opcode := by
  obtain ⟨-, code, -, hb, -⟩ := h.step
  simp [ofStep, hb]

theorem exclusive_ofStep :
    (ofStep p number s).after?.isSome = !(ofStep p number s).error?.isSome := by
  cases h : (ofStep p number s).ending <;> simp [after?, error?, h]

/-- An entry tells how its step left the machine. -/
theorem outcome_ofStep (h : s.Live p) :
    (ofStep p number s).error? = (s.next p).machine.phase.fault? ∧
      (ofStep p number s).halted = (s.next p).machine.phase.isHalted ∧
      (ofStep p number s).after?.getD (ofStep p number s).before =
        (s.next p).machine.registers := by
  cases h.step.1 with
  | retired houtcome hphase =>
    have hrun : (s.next p).machine.phase = .running := hphase
    rw [hrun]
    simp [ofStep, error?, halted, after?, Ending.ofOutcome, houtcome, Phase.fault?, Phase.isHalted]
  | halted houtcome hphase hfault =>
    have hhalt : (s.next p).machine.phase = .halted _ := hphase
    have hnone : (s.next p).machine.phase.fault? = none := hfault
    rw [hnone, hhalt]
    simp [ofStep, error?, halted, after?, Ending.ofOutcome, houtcome, Phase.isHalted]
  | @faulted cause houtcome hmachine =>
    have hhalt : (s.next p).machine = s.machine.halt (.fault cause) := hmachine
    rw [hhalt]
    simp [ofStep, error?, halted, after?, Ending.ofOutcome, houtcome, Machine.halt, Phase.fault?,
      Phase.isHalted]

/-- A step without a fault leaves registers behind. -/
theorem after?_ofStep (h : s.Live p) (hnone : (ofStep p number s).error? = none) :
    (ofStep p number s).after? = some (s.next p).machine.registers := by
  have hafter := (outcome_ofStep number h).2.2
  have hexclusive : (ofStep p number s).after?.isSome = _ := exclusive_ofStep number
  rw [hnone] at hexclusive
  obtain ⟨after, hsome⟩ := Option.isSome_iff_exists.1 hexclusive
  rw [hsome, Option.getD_some] at hafter
  rw [hsome, hafter]

/-- An entry that another one follows says nothing but where its step led. -/
theorem linked_ofStep (h : s.Live p) (hnext : (s.next p).Live p) :
    (ofStep p number s).after? = some (s.next p).machine.registers ∧
      (ofStep p number s).halted = false ∧ (ofStep p number s).error? = none := by
  obtain ⟨herror, hhalted, -⟩ := outcome_ofStep number h
  rw [hnext.running] at herror hhalted
  have hnone : (ofStep p number s).error? = none := herror
  exact ⟨after?_ofStep number h hnone, hhalted, hnone⟩

end Trace.Entry

open Trace

variable {p : Program} {inputs : List UInt16} {config : Config} {k : Nat} {e : Entry}

/-- How many entries the trace of a run has. -/
theorem length_trace :
    (run p inputs config).trace.length = liveSteps p config.maxSteps (start inputs config) := by
  rw [(run_eq p inputs config).1, Progress.entriesFrom, List.length_map, List.length_range]

theorem getElem?_trace :
    (run p inputs config).trace[k]? = some e ↔
      k < (run p inputs config).trace.length ∧
        e = .ofStep p k ((next p)^[k] (start inputs config)) := by
  rw [length_trace, (run_eq p inputs config).1, Progress.entriesFrom, List.getElem?_map,
    Option.map_eq_some_iff]
  constructor
  · rintro ⟨j, hj, rfl⟩
    obtain ⟨hlt, hget⟩ := List.getElem?_eq_some_iff.1 hj
    rw [List.getElem_range] at hget
    rw [List.length_range] at hlt
    subst hget
    exact ⟨hlt, by rw [Nat.zero_add]⟩
  · rintro ⟨hlt, rfl⟩
    exact ⟨k, List.getElem?_range hlt, by rw [Nat.zero_add]⟩

theorem live_of_lt_trace (h : k < (run p inputs config).trace.length) :
    ((next p)^[k] (start inputs config)).Live p := by
  rw [length_trace] at h
  exact live_of_lt_liveSteps h

/-- An entry of the trace is that of the session that its number leads to. -/
theorem exists_of_mem_trace (h : e ∈ (run p inputs config).trace) :
    ∃ k s, s = (next p)^[k] (start inputs config) ∧ s.Live p ∧ e = .ofStep p k s := by
  obtain ⟨k, hk⟩ := List.mem_iff_getElem?.1 h
  obtain ⟨hlt, rfl⟩ := getElem?_trace.1 hk
  exact ⟨k, _, rfl, live_of_lt_trace hlt, rfl⟩

/-- The step of the last entry leads to where the run ends. -/
theorem exists_of_getLast?_trace (h : (run p inputs config).trace.getLast? = some e) :
    ∃ k s, s.Live p ∧ e = .ofStep p k s ∧ s.next p = Session.final p inputs config := by
  rw [List.getLast?_eq_getElem?] at h
  obtain ⟨hlt, rfl⟩ := getElem?_trace.1 h
  refine ⟨_, _, live_of_lt_trace hlt, rfl, ?_⟩
  have hlive : (start inputs config).Live p := live_of_lt_trace (Nat.zero_lt_of_lt hlt)
  have hlast : (run p inputs config).trace.length - 1 + 1 =
      liveSteps p config.maxSteps (start inputs config) := by
    rw [← length_trace]
    omega
  rw [Session.final, iterate_liveSteps hlive config.maxSteps, ← hlast,
    Function.iterate_succ_apply']

/-- A run that ends halted has a last entry, and that entry is halted. -/
theorem exists_last_of_halted (hlive : (start inputs config).Live p)
    (hend : (Session.final p inputs config).machine.phase.isHalted = true) :
    ∃ e, (run p inputs config).trace.getLast? = some e ∧ e.halted = true := by
  cases hlast : (run p inputs config).trace.getLast? with
  | none =>
    have hzero : liveSteps p config.maxSteps (start inputs config) = 0 := by
      rw [← length_trace, List.getLast?_eq_none_iff.1 hlast]
      rfl
    rw [Session.final, iterate_liveSteps hlive, hzero] at hend
    cases hend
  | some e =>
    obtain ⟨k, s, hs, rfl, hnext⟩ := exists_of_getLast?_trace hlast
    exact ⟨_, rfl, by rw [(Entry.outcome_ofStep k hs).2.1, hnext, hend]⟩

/-- A run that ends with a fault has a last entry, and its step is the one that faulted. -/
theorem exists_last_of_error {cause : Fault} (h : (run p inputs config).error = some cause) :
    ∃ k, (run p inputs config).trace.length = k + 1 ∧ k < config.maxSteps ∧
      ((next p)^[k] (start inputs config)).Live p ∧
      ∃ e, (run p inputs config).trace[k]? = some e ∧ e.error? = some cause := by
  rw [(run_eq p inputs config).2.2.2.1] at h
  have hlive : (start inputs config).Live p := by
    by_contra hn
    have hfault := (iterate_of_not_live hn config.maxSteps).2.2.2
    rw [← Session.final, h] at hfault
    cases hfault
  have hhalted : (Session.final p inputs config).machine.phase.isHalted = true := by
    cases hphase : (Session.final p inputs config).machine.phase with
    | running => simp [hphase, Phase.fault?] at h
    | halted reason => rfl
  obtain ⟨e, hlast, -⟩ := exists_last_of_halted hlive hhalted
  obtain ⟨number, s, hs, he, hnext⟩ := exists_of_getLast?_trace hlast
  have herror : e.error? = some cause := by
    rw [he, (Entry.outcome_ofStep number hs).1, hnext, h]
  rw [List.getLast?_eq_getElem?] at hlast
  have hlt := (getElem?_trace.1 hlast).1
  have hbound : (run p inputs config).trace.length ≤ config.maxSteps := by
    rw [length_trace]
    exact liveSteps_le ..
  exact ⟨_, by omega, by omega, live_of_lt_trace hlt, e, hlast, herror⟩

/-- The trace of a run is well formed, and its last entry tells how the run ended. -/
theorem run_coherent (p : Program) (inputs : List UInt16) (config : Config) :
    (run p inputs config).Coherent p config.maxSteps := by
  obtain ⟨-, hfinal, -, herror, hhalted⟩ := run_eq p inputs config
  refine ⟨?_, ?_, ?_, ?_, ?_, ?_, ?_, ?_, ?_⟩
  · rw [length_trace]
    exact liveSteps_le ..
  · intro k e hk
    obtain ⟨-, rfl⟩ := getElem?_trace.1 hk
    rfl
  · intro e he
    obtain ⟨k, s, -, hlive, rfl⟩ := exists_of_mem_trace he
    have hb : p.byte? _ = _ := Entry.byte?_ofStep k hlive
    exact ⟨Program.byte?_eq_some_lt hb, hb⟩
  · intro e he
    obtain ⟨-, rfl⟩ := getElem?_trace.1 he
    rfl
  · intro k e e' hk hk'
    obtain ⟨hlt, rfl⟩ := getElem?_trace.1 hk
    obtain ⟨hlt', rfl⟩ := getElem?_trace.1 hk'
    have hnext := live_of_lt_trace hlt'
    have hbefore : ∀ s : Session, (Entry.ofStep p (k + 1) s).before = s.machine.registers :=
      fun _ => rfl
    rw [Function.iterate_succ_apply'] at hnext
    rw [hbefore, Function.iterate_succ_apply']
    exact Entry.linked_ofStep k (live_of_lt_trace hlt) hnext
  · intro e he
    obtain ⟨k, s, -, -, rfl⟩ := exists_of_mem_trace he
    exact Entry.exclusive_ofStep k
  · intro e he
    obtain ⟨k, s, hlive, rfl, hnext⟩ := exists_of_getLast?_trace he
    obtain ⟨herror', -, hafter⟩ := Entry.outcome_ofStep k hlive
    rw [herror, hfinal, ← hnext]
    exact ⟨herror', hafter⟩
  · rw [hhalted, Bool.or_eq_true]
    constructor
    · rintro (hempty | hend)
      · exact .inl hempty
      · cases hempty : p.isEmpty with
        | true => exact .inl rfl
        | false => exact .inr (exists_last_of_halted (live_start_iff.2 hempty) hend)
    · rintro (hempty | ⟨e, he, hend⟩)
      · exact .inl hempty
      · obtain ⟨k, s, hlive, rfl, hnext⟩ := exists_of_getLast?_trace he
        rw [(Entry.outcome_ofStep k hlive).2.1, hnext] at hend
        exact .inr hend
  · intro hrun
    rw [hhalted, Bool.or_eq_false_iff] at hrun
    obtain ⟨hempty, hrun⟩ := hrun
    have hsteps := liveSteps_eq_of_running (live_start_iff.2 hempty) (Bool.not_eq_true _ ▸ hrun)
    refine ⟨?_, by rw [length_trace, hsteps]⟩
    rw [herror]
    cases hphase : (Session.final p inputs config).machine.phase with
    | running => rfl
    | halted reason => simp [hphase, Phase.isHalted] at hrun

end WordMachine
