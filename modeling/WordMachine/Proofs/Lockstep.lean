import WordMachine.Proofs.Tracing

/-! Two sessions in lockstep: as long as both are at one instruction and it has one effect on both,
their steps look the same from outside, whatever else the sessions hold. -/
namespace WordMachine

variable {p : Program} {s s' : Session} {i : Instruction} {e : Effect} {cause : Fault}
  {m : Machine} {c : Console} {pc : UInt16} {code : UInt8} {n k : Nat}

namespace Machine

/-- Only the effect decides whether a retired instruction was the last one. -/
theorem stop?_apply :
    (e.apply m).stop? p e =
      if e.halts then some .brk else if p.contains e.nextPc then none else some .programEnd := rfl

theorem phase_retire :
    (m.retire p c e pc code).machine.phase =
      match (e.apply m).stop? p e with
      | none => m.phase
      | some reason => .halted reason := by
  rw [machine_retire]
  cases (e.apply m).stop? p e <;> rfl

end Machine

namespace Session

/-- The effect of the instruction that the session is at, or the fault that it raises there. -/
def effect (p : Program) (s : Session) : Except Fault Effect :=
  match p.decode s.machine.registers.pc with
  | .error cause => .error cause
  | .ok i => i.effect s.machine.registers s.machine.memory s.console.next

/-- The next step retires instruction `i`, which has effect `e`. -/
structure Executes (p : Program) (s : Session) (i : Instruction) (e : Effect) : Prop where
  live : s.Live p
  decode : p.decode s.machine.registers.pc = .ok i
  effect : i.effect s.machine.registers s.machine.memory s.console.next = .ok e

/-- The next step changes nothing, the phase apart. -/
structure Stays (p : Program) (s : Session) : Prop where
  registers : (s.next p).machine.registers = s.machine.registers
  memory : (s.next p).machine.memory = s.machine.memory
  console : (s.next p).console = s.console

theorem executes_or_faults (h : s.Live p) :
    (∃ i e, s.Executes p i e) ∨ ∃ cause, s.effect p = .error cause := by
  cases hd : p.decode s.machine.registers.pc with
  | error cause => exact .inr ⟨cause, by simp [effect, hd]⟩
  | ok i =>
    cases he : i.effect s.machine.registers s.machine.memory s.console.next with
    | error cause => exact .inr ⟨cause, by simp [effect, hd, he]⟩
    | ok e => exact .inl ⟨i, e, h, hd, he⟩

theorem Executes.effect_eq (h : s.Executes p i e) : s.effect p = .ok e := by
  simp [Session.effect, h.decode, h.effect]

theorem Executes.stepped_eq (h : s.Executes p i e) :
    s.stepped p = s.machine.retire p (i.consoleAfter s.console) e s.machine.registers.pc
      i.opcode.code :=
  Machine.step_of_effect h.live.running h.decode h.effect

theorem Executes.registers_next (h : s.Executes p i e) :
    (s.next p).machine.registers = e.applyRegisters s.machine.registers :=
  (next_of_effect h.live.running h.decode h.effect).1

theorem Executes.memory_next (h : s.Executes p i e) :
    (s.next p).machine.memory = e.applyMemory s.machine.memory :=
  (next_of_effect h.live.running h.decode h.effect).2.1

theorem Executes.console_next (h : s.Executes p i e) :
    (s.next p).console = e.applyConsole (i.consoleAfter s.console) :=
  (next_of_effect h.live.running h.decode h.effect).2.2.2

theorem stepped_of_fault (h : s.Live p) (he : s.effect p = .error cause) :
    s.stepped p =
      { machine := s.machine.halt (.fault cause), console := s.console, outcome := .faulted cause
        events := [.started s.machine.registers.pc ((p.byte? s.machine.registers.pc).getD 0),
          .faulted cause s.machine.registers.pc] } := by
  obtain ⟨-, code, -, hb, -⟩ := h.step
  have hplan : s.machine.plan p s.console = .error cause := by
    cases hd : p.decode s.machine.registers.pc with
    | error cause' =>
      simp only [effect, hd] at he
      cases he
      exact Machine.plan_of_decode_error hd
    | ok i =>
      simp only [effect, hd] at he
      exact Machine.plan_of_effect_error hd he
  rw [hb]
  exact Machine.step_of_plan_error h.running hb hplan

theorem stays_of_not_executes (h : ∀ i e, ¬ s.Executes p i e) : s.Stays p := by
  by_cases hl : s.Live p
  · rcases executes_or_faults hl with ⟨i, e, he⟩ | ⟨cause, he⟩
    · exact absurd he (h i e)
    · constructor <;> rw [next, stepped_of_fault hl he] <;> rfl
  · obtain ⟨reason, hmachine, hconsole, -⟩ := stepped_of_not_live hl
    constructor
    · rw [next, hmachine]
      rfl
    · rw [next, hmachine]
      rfl
    · exact hconsole

/-- Both sessions are at one instruction, and it has the same effect on both and shows the same
cell. -/
structure InStep (p : Program) (s s' : Session) : Prop where
  phase : s'.machine.phase = s.machine.phase
  pc : s'.machine.registers.pc = s.machine.registers.pc
  effect : s.Live p → s'.effect p = s.effect p
  shown : ∀ {i e}, s.Executes p i e →
    (e.apply s'.machine).touchEvents e = (e.apply s.machine).touchEvents e

/-- From outside, the next step of both sessions is one and the same. -/
structure LooksSame (p : Program) (s s' : Session) : Prop where
  outcome : (s'.stepped p).outcome = (s.stepped p).outcome
  events : (s'.stepped p).events = (s.stepped p).events
  phase : (s'.next p).machine.phase = (s.next p).machine.phase

namespace InStep

variable (h : InStep p s s')
include h

theorem live_iff : s'.Live p ↔ s.Live p := by
  constructor
  · intro hl
    exact ⟨h.phase ▸ hl.running, h.pc ▸ hl.inside⟩
  · intro hl
    exact ⟨h.phase ▸ hl.running, h.pc.symm ▸ hl.inside⟩

theorem executes (hs : s.Executes p i e) : s'.Executes p i e := by
  have hdecode : p.decode s'.machine.registers.pc = .ok i := h.pc.symm ▸ hs.decode
  have heffect := h.effect hs.live
  rw [hs.effect_eq, Session.effect, hdecode] at heffect
  exact ⟨h.live_iff.2 hs.live, hdecode, heffect⟩

/-- The next step has the same effect on both sessions, or it has none on either. -/
theorem executes_or_stays :
    (∃ i e, s.Executes p i e ∧ s'.Executes p i e) ∨ (s.Stays p ∧ s'.Stays p) := by
  by_cases hs : ∃ i e, s.Executes p i e
  · obtain ⟨i, e, hs⟩ := hs
    exact .inl ⟨i, e, hs, h.executes hs⟩
  · refine .inr ⟨stays_of_not_executes fun i e he => hs ⟨i, e, he⟩, ?_⟩
    refine stays_of_not_executes fun i e hs' => ?_
    have hl := h.live_iff.1 hs'.live
    rcases executes_or_faults hl with he | ⟨cause, he⟩
    · exact hs he
    · have heffect := h.effect hl
      rw [hs'.effect_eq, he] at heffect
      cases heffect

theorem looksSame : LooksSame p s s' := by
  by_cases hl : s.Live p
  · have hl' := h.live_iff.2 hl
    rcases executes_or_faults hl with ⟨i, e, hs⟩ | ⟨cause, he⟩
    · have hs' := h.executes hs
      constructor
      · rw [hs.stepped_eq, hs'.stepped_eq, Machine.outcome_retire, Machine.outcome_retire,
          Machine.stop?_apply, Machine.stop?_apply]
      · rw [hs.stepped_eq, hs'.stepped_eq, Machine.events_retire, Machine.events_retire, h.pc,
          h.shown hs]
      · rw [next, next, hs.stepped_eq, hs'.stepped_eq, Machine.phase_retire, Machine.phase_retire,
          Machine.stop?_apply, Machine.stop?_apply, h.phase]
    · have he' := (h.effect hl).trans he
      have hstepped := stepped_of_fault hl he
      have hstepped' := stepped_of_fault hl' he'
      constructor
      · rw [hstepped, hstepped']
      · rw [hstepped, hstepped', h.pc]
      · rw [next, next, hstepped, hstepped']
        rfl
  · -- where no instruction begins, a step tells the phase and at most where the machine stopped
    cases hphase : s.machine.phase with
    | halted reason =>
      have hstepped := stepped_of_halted (p := p) hphase
      have hstepped' := stepped_of_halted (p := p) (h.phase.trans hphase)
      constructor
      · rw [hstepped, hstepped']
      · rw [hstepped, hstepped']
      · rw [next, next, hstepped, hstepped']
        exact h.phase
    | running =>
      have hout : p.contains s.machine.registers.pc = false := by
        cases hin : p.contains s.machine.registers.pc with
        | false => rfl
        | true => exact absurd ⟨hphase, hin⟩ hl
      have hstepped := stepped_of_outside hphase hout
      have hstepped' := stepped_of_outside (h.phase.trans hphase) (h.pc.symm ▸ hout)
      constructor
      · rw [hstepped, hstepped']
      · rw [hstepped, hstepped']
      · rw [next, next, hstepped, hstepped']
        rfl

end InStep

/-- A relation between sessions with so many steps to go: it keeps them in step, and the sessions
that their steps lead to are related again. -/
structure Coupling (p : Program) (R : Nat → Session → Session → Prop) : Prop where
  inStep : ∀ {n s s'}, R (n + 1) s s' → InStep p s s'
  next : ∀ {n s s'}, R (n + 1) s s' → R n (s.next p) (s'.next p)

namespace Coupling

variable {R : Nat → Session → Session → Prop} (h : Coupling p R)
include h

theorem iterate (k : Nat) (hR : R (n + k) s s') :
    R n ((Session.next p)^[k] s) ((Session.next p)^[k] s') := by
  induction k generalizing s s' with
  | zero => exact hR
  | succ k ih => exact ih (h.next hR)

theorem looksSame (hR : R n s s') (hk : k < n) :
    LooksSame p ((Session.next p)^[k] s) ((Session.next p)^[k] s') := by
  -- `k` steps taken, the one to look at, and the rest
  have hn : n = n - k - 1 + 1 + k := by omega
  rw [hn] at hR
  exact (h.inStep (h.iterate k hR)).looksSame

end Coupling

/-- What a run reports of the session that it ends in is the same for both. -/
structure SameReport (s s' : Session) : Prop where
  registers : s'.machine.registers = s.machine.registers
  phase : s'.machine.phase = s.machine.phase
  outputs : s'.console.outputs = s.console.outputs

end Session

open Session Trace

theorem Trace.Entry.ofStep_congr (number : Nat) (h : LooksSame p s s')
    (hbefore : s'.machine.registers = s.machine.registers)
    (hafter : (s'.next p).machine.registers = (s.next p).machine.registers) :
    ofStep p number s' = ofStep p number s := by
  simp only [ofStep, hbefore, hafter, h.outcome, h.events]

namespace Session.Coupling

variable {R : Nat → Session → Session → Prop} (h : Coupling p R)
  (hreport : ∀ {n s s'}, R n s s' → SameReport s s')
include h hreport

/-- By induction on the steps to go: the first entries are equal since the first steps look the
same and lead to equal registers. -/
theorem entriesFrom_eq (number : Nat) (hR : R n s s') :
    Progress.entriesFrom p number n s' = Progress.entriesFrom p number n s := by
  induction n generalizing number s s' with
  | zero => rfl
  | succ n ih =>
    have hstep := h.inStep hR
    by_cases hl : s.Live p
    · have hfirst := Entry.ofStep_congr number hstep.looksSame (hreport hR).registers
        (hreport (h.next hR)).registers
      rw [Progress.entriesFrom_succ hl, Progress.entriesFrom_succ (hstep.live_iff.2 hl), hfirst,
        ih (number + 1) (h.next hR)]
    · rw [Progress.entriesFrom_of_not_live hl,
        Progress.entriesFrom_of_not_live (fun hl' => hl (hstep.live_iff.1 hl'))]

/-- Runs that start coupled have one result. -/
theorem run_eq {inputs inputs' : List UInt16} {config config' : Config}
    (hbound : config'.maxSteps = config.maxSteps)
    (hR : R config.maxSteps (start inputs config) (start inputs' config')) :
    run p inputs' config' = run p inputs config := by
  obtain ⟨htrace, hfinal, houtputs, herror, hhalted⟩ := WordMachine.run_eq p inputs config
  obtain ⟨htrace', hfinal', houtputs', herror', hhalted'⟩ := WordMachine.run_eq p inputs' config'
  have hend : R 0 (Session.final p inputs config) (Session.final p inputs' config') := by
    rw [Session.final, Session.final, hbound]
    exact h.iterate config.maxSteps (by rwa [Nat.zero_add])
  have hsame := hreport hend
  apply RunResult.ext
  · rfl
  · rw [htrace, htrace', hbound, h.entriesFrom_eq hreport 0 hR]
  · rw [hhalted, hhalted', hsame.phase]
  · rw [herror, herror', hsame.phase]
  · rw [houtputs, houtputs', hsame.outputs]
  · rw [hfinal, hfinal', hsame.registers]

end Session.Coupling

end WordMachine
