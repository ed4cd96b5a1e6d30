import Mathlib.Logic.Function.Iterate
import WordMachine.Proofs.Execution
import WordMachine.Step

/-! Stepping by hand: a run is as many single steps as its bound allows, because a halted machine
stays as it is and a machine that still runs after a step is inside its program. -/
namespace WordMachine

/-- A machine and the console that it is wired to. -/
structure Session where
  machine : Machine
  console : Console

/-- How a step of a running machine inside its program ends: the machine runs on inside the program,
or an instruction was its last, or the step faulted and changed nothing but the phase. -/
inductive Ends (p : Program) (before : Machine) (after : Stepped) : Prop
  | retired {cycles : UInt16} (houtcome : after.outcome = .retired cycles)
      (hphase : after.machine.phase = .running)
      (hinside : p.contains after.machine.registers.pc = true) : Ends p before after
  | halted {cycles : UInt16} {reason : HaltReason}
      (houtcome : after.outcome = .halted cycles reason)
      (hphase : after.machine.phase = .halted reason)
      (hfault : after.machine.phase.fault? = none) : Ends p before after
  | faulted {cause : Fault} (houtcome : after.outcome = .faulted cause)
      (hmachine : after.machine = before.halt (.fault cause)) : Ends p before after

def Event.isStart : Event → Bool
  | .started .. => true
  | .touched .. | .retired .. | .faulted .. => false

namespace Machine

variable {p : Program} {m : Machine} {c : Console} {e : Effect} {pc : UInt16} {code : UInt8}

theorem contains_of_stop? (h : m.stop? p e = none) : p.contains m.registers.pc = true := by
  unfold stop? at h
  split at h
  · cases h
  · split at h
    · assumption
    · cases h

theorem fault?_of_stop? {reason : HaltReason} (h : m.stop? p e = some reason) :
    (Phase.halted reason).fault? = none := by
  unfold stop? at h
  split at h
  · cases h
    rfl
  · split at h
    · cases h
    · cases h
      rfl

theorem ends_retire (h : m.phase = .running) : Ends p m (m.retire p c e pc code) := by
  simp only [retire]
  split
  case h_1 hstop => exact .retired rfl h (contains_of_stop? hstop)
  case h_2 reason hstop => exact .halted rfl rfl (fault?_of_stop? hstop)

theorem fault?_retire (h : m.phase = .running) :
    (m.retire p c e pc code).machine.phase.fault? = none := by
  simp only [retire]
  split
  case h_1 =>
    have hphase : (e.apply m).phase = .running := h
    rw [hphase]
    rfl
  case h_2 reason hstop => exact fault?_of_stop? hstop

theorem registers_retire :
    (m.retire p c e pc code).machine.registers = e.applyRegisters m.registers := by
  rw [machine_retire]
  split <;> rfl

theorem memory_retire :
    (m.retire p c e pc code).machine.memory = e.applyMemory m.memory := by
  rw [machine_retire]
  split <;> rfl

theorem events_retire :
    (m.retire p c e pc code).events =
      .started pc code :: ((e.apply m).touchEvents e ++ [.retired pc e.cycles]) := by
  simp only [retire]
  split <;> rfl

theorem isStart_of_mem_touchEvents {event : Event} (h : event ∈ m.touchEvents e) :
    event.isStart = false := by
  unfold touchEvents at h
  split at h
  · cases h
  · split at h
    · rw [List.mem_singleton] at h
      rw [h]
      rfl
    · cases h

end Machine

namespace Session

def start (inputs : List UInt16) (config : Config) : Session where
  machine := .fresh config
  console := .ofInputs inputs

/-- What the next step does. -/
def stepped (p : Program) (s : Session) : Stepped := s.machine.step p s.console

/-- The session after one step. -/
def next (p : Program) (s : Session) : Session where
  machine := (s.stepped p).machine
  console := (s.stepped p).console

/-- The next step begins an instruction. -/
structure Live (p : Program) (s : Session) : Prop where
  running : s.machine.phase = .running
  inside : p.contains s.machine.registers.pc = true

instance (p : Program) (s : Session) : Decidable (s.Live p) :=
  decidable_of_iff (s.machine.phase = .running ∧ p.contains s.machine.registers.pc = true)
    ⟨fun h => ⟨h.1, h.2⟩, fun h => ⟨h.1, h.2⟩⟩

/-- How many of the next steps begin an instruction, up to the first that does not. -/
def liveSteps (p : Program) : Nat → Session → Nat
  | 0, _ => 0
  | n + 1, s => if s.Live p then liveSteps p n (s.next p) + 1 else 0

variable {p : Program} {s : Session} {n k : Nat} {inputs : List UInt16} {config : Config}

/-- Many steps at once are single steps one after another. -/
theorem steps_eq_iterate (p : Program) (n : Nat) (s : Session) (last : Option Outcome) :
    (Machine.steps p n s.machine s.console last).1 = ((next p)^[n] s).machine ∧
      (Machine.steps p n s.machine s.console last).2.1 = ((next p)^[n] s).console := by
  induction n generalizing s last with
  | zero => exact ⟨rfl, rfl⟩
  | succ n ih => exact ih (s.next p) _

/-- A live step reports its start and nothing else that looks like one, and it ends in one of the
three ways. -/
theorem Live.step (h : s.Live p) :
    Ends p s.machine (s.stepped p) ∧
      ∃ code rest, p.byte? s.machine.registers.pc = some code ∧
        (s.stepped p).events = .started s.machine.registers.pc code :: rest ∧
        ∀ event ∈ rest, event.isStart = false := by
  have hlt : s.machine.registers.pc.toNat < p.size := of_decide_eq_true h.inside
  obtain ⟨code, hb⟩ := Program.exists_byte? hlt
  cases hp : s.machine.plan p s.console with
  | error cause =>
    have hs : s.stepped p = _ := Machine.step_of_plan_error h.running hb hp
    rw [hs]
    refine ⟨.faulted rfl rfl, code, _, hb, rfl, ?_⟩
    intro event hevent
    rw [List.mem_singleton] at hevent
    rw [hevent]
    rfl
  | ok planned =>
    obtain ⟨e, c⟩ := planned
    have hs : s.stepped p = s.machine.retire p c e s.machine.registers.pc code := by
      simp [stepped, Machine.step, h.running, hb, hp]
    rw [hs]
    refine ⟨Machine.ends_retire h.running, code, _, hb, Machine.events_retire, ?_⟩
    intro event hevent
    rcases List.mem_append.1 hevent with hevent | hevent
    · exact Machine.isStart_of_mem_touchEvents hevent
    · rw [List.mem_singleton] at hevent
      rw [hevent]
      rfl

theorem next_of_effect_error {i : Instruction} {cause : Fault} (h : s.machine.phase = .running)
    (hd : p.decode s.machine.registers.pc = .ok i)
    (he : i.effect s.machine.registers s.machine.memory s.console.next = .error cause) :
    s.next p = { machine := s.machine.halt (.fault cause), console := s.console } := by
  have hs : s.stepped p = _ := Machine.step_of_plan_error h (Program.byte?_of_decode hd)
    (Machine.plan_of_effect_error hd he)
  rw [next, hs]

theorem next_of_effect {i : Instruction} {e : Effect} (h : s.machine.phase = .running)
    (hd : p.decode s.machine.registers.pc = .ok i)
    (he : i.effect s.machine.registers s.machine.memory s.console.next = .ok e) :
    (s.next p).machine.registers = e.applyRegisters s.machine.registers ∧
      (s.next p).machine.memory = e.applyMemory s.machine.memory ∧
      (s.next p).machine.phase.fault? = none ∧
      (s.next p).console = e.applyConsole (i.consoleAfter s.console) := by
  have hs : s.stepped p = _ := Machine.step_of_effect h hd he
  rw [next, hs]
  exact ⟨Machine.registers_retire, Machine.memory_retire, Machine.fault?_retire h,
    Machine.console_retire⟩

/-- A machine that still runs after a step is inside its program. -/
theorem live_next (h : s.Live p) (hrun : ¬ (s.next p).machine.phase.isHalted = true) :
    (s.next p).Live p := by
  cases h.step.1 with
  | retired _ hphase hinside => exact ⟨hphase, hinside⟩
  | halted _ hphase =>
    refine absurd ?_ hrun
    rw [next, hphase]
    rfl
  | faulted _ hmachine =>
    refine absurd ?_ hrun
    rw [next, hmachine]
    rfl

theorem stepped_of_halted {reason : HaltReason} (h : s.machine.phase = .halted reason) :
    s.stepped p =
      { machine := s.machine, console := s.console, outcome := reason.outcome, events := [] } := by
  simp [stepped, Machine.step, h]

theorem stepped_of_outside (h : s.machine.phase = .running)
    (hout : p.contains s.machine.registers.pc = false) :
    s.stepped p =
      { machine := s.machine.halt .programEnd, console := s.console
        outcome := .halted 0 .programEnd, events := [] } :=
  Machine.step_of_outside h ((Program.byte?_eq_none_iff p).2 hout)

theorem next_of_halted (h : s.machine.phase.isHalted = true) : s.next p = s := by
  cases hphase : s.machine.phase with
  | running => simp [hphase, Phase.isHalted] at h
  | halted reason => simp [next, stepped_of_halted hphase]

/-- A halted session stays as it is however often it is stepped. -/
theorem iterate_of_halted (h : s.machine.phase.isHalted = true) (n : Nat) :
    (next p)^[n] s = s := Function.iterate_fixed (next_of_halted h) n

theorem not_live_of_halted (h : s.machine.phase.isHalted = true) : ¬ s.Live p := by
  intro hl
  simp [hl.running, Phase.isHalted] at h

theorem not_live_iff :
    ¬ s.Live p ↔ s.machine.phase.isHalted = true ∨
      (s.machine.phase = .running ∧ p.contains s.machine.registers.pc = false) := by
  constructor
  · intro h
    cases hphase : s.machine.phase with
    | running =>
      refine .inr ⟨rfl, ?_⟩
      cases hin : p.contains s.machine.registers.pc with
      | false => rfl
      | true => exact absurd ⟨hphase, hin⟩ h
    | halted reason => exact .inl rfl
  · rintro (h | ⟨-, hout⟩) hl
    · exact not_live_of_halted h hl
    · simp [hl.inside] at hout

/-- A step that begins no instruction only halts the machine, and it hides no fault. -/
theorem stepped_of_not_live (h : ¬ s.Live p) :
    ∃ reason, (s.stepped p).machine = s.machine.halt reason ∧
      (s.stepped p).console = s.console ∧ (s.stepped p).events = [] ∧
      (Phase.halted reason).fault? = s.machine.phase.fault? := by
  rcases not_live_iff.1 h with hh | ⟨hrun, hout⟩
  · cases hphase : s.machine.phase with
    | running => simp [hphase, Phase.isHalted] at hh
    | halted reason =>
      rw [stepped_of_halted hphase]
      exact ⟨reason, by rw [Machine.halt, ← hphase], rfl, rfl, rfl⟩
  · rw [stepped_of_outside hrun hout, hrun]
    exact ⟨.programEnd, rfl, rfl, rfl, rfl⟩

theorem isHalted_next (h : ¬ s.Live p) : (s.next p).machine.phase.isHalted = true := by
  obtain ⟨reason, hmachine, -⟩ := stepped_of_not_live h
  rw [next, hmachine]
  rfl

theorem isHalted_iterate_succ (h : ¬ s.Live p) (n : Nat) :
    ((next p)^[n + 1] s).machine.phase.isHalted = true := by
  have hhalted := isHalted_next h
  rwa [Function.iterate_succ_apply, iterate_of_halted hhalted]

theorem iterate_of_not_live (h : ¬ s.Live p) (n : Nat) :
    ((next p)^[n] s).machine.registers = s.machine.registers ∧
      ((next p)^[n] s).machine.memory = s.machine.memory ∧
      ((next p)^[n] s).console = s.console ∧
      ((next p)^[n] s).machine.phase.fault? = s.machine.phase.fault? := by
  cases n with
  | zero => exact ⟨rfl, rfl, rfl, rfl⟩
  | succ n =>
    obtain ⟨reason, hmachine, hconsole, -, hfault⟩ := stepped_of_not_live h
    rw [Function.iterate_succ_apply, iterate_of_halted (isHalted_next h), next, hmachine, hconsole]
    exact ⟨rfl, rfl, rfl, hfault⟩

/-- A session that was live is live or halted ever after. -/
theorem isHalted_iterate_of_live (h : s.Live p) (hn : ¬ ((next p)^[n] s).Live p) :
    ((next p)^[n] s).machine.phase.isHalted = true := by
  induction n with
  | zero => exact absurd h hn
  | succ n ih =>
    rw [Function.iterate_succ_apply'] at hn ⊢
    by_cases hl : ((next p)^[n] s).Live p
    · by_contra hrun
      exact hn (live_next hl hrun)
    · rw [next_of_halted (ih hl)]
      exact ih hl

theorem liveSteps_of_not_live (h : ¬ s.Live p) (n : Nat) : liveSteps p n s = 0 := by
  cases n with
  | zero => rfl
  | succ n => simp [liveSteps, h]

theorem liveSteps_succ (h : s.Live p) : liveSteps p (n + 1) s = liveSteps p n (s.next p) + 1 := by
  simp [liveSteps, h]

theorem liveSteps_le (p : Program) (n : Nat) (s : Session) : liveSteps p n s ≤ n := by
  induction n generalizing s with
  | zero => exact Nat.le_refl 0
  | succ n ih =>
    by_cases h : s.Live p
    · rw [liveSteps_succ h]
      exact Nat.succ_le_succ (ih (s.next p))
    · rw [liveSteps_of_not_live h]
      exact Nat.zero_le _

/-- A shorter course of steps is live as long as the longer one, up to its own end. -/
theorem liveSteps_min (p : Program) (k n : Nat) (s : Session) :
    liveSteps p (min k n) s = min k (liveSteps p n s) := by
  induction n generalizing k s with
  | zero => simp [liveSteps]
  | succ n ih =>
    cases k with
    | zero => simp [liveSteps]
    | succ k =>
      by_cases h : s.Live p
      · rw [Nat.succ_min_succ, liveSteps_succ h, liveSteps_succ h, ih, Nat.succ_min_succ]
      · rw [liveSteps_of_not_live h, liveSteps_of_not_live h, Nat.min_zero]

theorem live_of_lt_liveSteps (h : k < liveSteps p n s) : ((next p)^[k] s).Live p := by
  induction n generalizing k s with
  | zero => exact absurd h (Nat.not_lt_zero k)
  | succ n ih =>
    by_cases hl : s.Live p
    · rw [liveSteps_succ hl] at h
      cases k with
      | zero => exact hl
      | succ k =>
        rw [Function.iterate_succ_apply]
        exact ih (Nat.lt_of_succ_lt_succ h)
    · rw [liveSteps_of_not_live hl] at h
      exact absurd h (Nat.not_lt_zero k)

/-- A session that began no instruction begins none later on. -/
theorem live_of_live_next (h : (s.next p).Live p) : s.Live p := by
  by_contra hn
  exact not_live_of_halted (isHalted_next hn) h

theorem lt_liveSteps_of_live (hk : k < n) (h : ((next p)^[k] s).Live p) :
    k < liveSteps p n s := by
  induction n generalizing k s with
  | zero => exact absurd hk (Nat.not_lt_zero k)
  | succ n ih =>
    cases k with
    | zero =>
      have hl : s.Live p := h
      rw [liveSteps_succ hl]
      exact Nat.succ_pos _
    | succ k =>
      have hrest := ih (Nat.lt_of_succ_lt_succ hk) h
      have hl : s.Live p := live_of_live_next (live_of_lt_liveSteps (Nat.zero_lt_of_lt hrest))
      rw [liveSteps_succ hl]
      exact Nat.succ_lt_succ hrest

theorem not_live_of_liveSteps_lt (h : liveSteps p n s < n) :
    ¬ ((next p)^[liveSteps p n s] s).Live p := by
  induction n generalizing s with
  | zero => exact absurd h (Nat.not_lt_zero _)
  | succ n ih =>
    by_cases hl : s.Live p
    · rw [liveSteps_succ hl] at h ⊢
      rw [Function.iterate_succ_apply]
      exact ih (Nat.lt_of_succ_lt_succ h)
    · rwa [liveSteps_of_not_live hl]

/-- Steps after the last live one change nothing. -/
theorem iterate_liveSteps (h : s.Live p) (n : Nat) :
    (next p)^[n] s = (next p)^[liveSteps p n s] s := by
  by_cases hlt : liveSteps p n s < n
  · have hhalted := isHalted_iterate_of_live h (not_live_of_liveSteps_lt hlt)
    have hsum : n = (n - liveSteps p n s) + liveSteps p n s := by omega
    conv_lhs => rw [hsum, Function.iterate_add_apply, iterate_of_halted hhalted]
  · rw [Nat.le_antisymm (liveSteps_le p n s) (Nat.le_of_not_lt hlt)]

theorem liveSteps_eq_of_running (h : s.Live p)
    (hrun : ¬ ((next p)^[n] s).machine.phase.isHalted = true) : liveSteps p n s = n := by
  by_contra hne
  have hlt : liveSteps p n s < n := Nat.lt_of_le_of_ne (liveSteps_le p n s) hne
  apply hrun
  rw [iterate_liveSteps h]
  exact isHalted_iterate_of_live h (not_live_of_liveSteps_lt hlt)

theorem starts_iff_live : (s.stepped p).events.any Event.isStart = true ↔ s.Live p := by
  by_cases h : s.Live p
  · obtain ⟨-, code, rest, -, hevents, -⟩ := h.step
    simp [hevents, h, Event.isStart]
  · obtain ⟨reason, -, -, hevents, -⟩ := stepped_of_not_live h
    simp [hevents, h]

/-- Since no step after one that begins no instruction begins one, counting the beginnings is
counting up to the first step without one. -/
theorem countP_starts (p : Program) (n : Nat) (s : Session) :
    (List.range n).countP (fun k => (((next p)^[k] s).stepped p).events.any Event.isStart) =
      liveSteps p n s := by
  induction n generalizing s with
  | zero => rfl
  | succ n ih =>
    rw [List.range_succ_eq_map, List.countP_cons, List.countP_map]
    have htail : (List.range n).countP
        ((fun k => (((next p)^[k] s).stepped p).events.any Event.isStart) ∘ Nat.succ) =
          liveSteps p n (s.next p) := by
      rw [← ih (s.next p)]
      rfl
    rw [htail, Function.iterate_zero_apply]
    by_cases h : s.Live p
    · simp [starts_iff_live.2 h, liveSteps_succ h]
    · have hnext : ¬ (s.next p).Live p := not_live_of_halted (isHalted_next h)
      have hstart : ¬ (s.stepped p).events.any Event.isStart = true := fun hs =>
        h (starts_iff_live.1 hs)
      simp [hstart, liveSteps_of_not_live h, liveSteps_of_not_live hnext]

end Session

/-- A session whose steps report to a sink, which may do with an event whatever it likes. -/
structure Watched (σ : Type) extends Session where
  sink : σ

def Watched.next {σ : Type} (observe : σ → Event → σ) (p : Program) (s : Watched σ) :
    Watched σ where
  toSession := s.toSession.next p
  sink := (s.toSession.stepped p).events.foldl observe s.sink

theorem Watched.toSession_iterate {σ : Type} (observe : σ → Event → σ) (p : Program) (n : Nat)
    (s : Watched σ) :
    ((Watched.next observe p)^[n] s).toSession = (Session.next p)^[n] s.toSession := by
  induction n generalizing s with
  | zero => rfl
  | succ n ih => rw [Function.iterate_succ_apply, Function.iterate_succ_apply, ih]; rfl

end WordMachine
