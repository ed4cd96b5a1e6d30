import WordMachine.Proofs.Stepping
import WordMachine.Run

/-! A run and its trace, read off the steps taken by hand: the run ends where as many steps as its
bound allows lead, and it has an entry for each of them that began an instruction. -/
namespace WordMachine

attribute [ext] RunResult

namespace Trace

/-- The cell that an event shows. -/
def Cell.ofEvent? : Event → Option Cell
  | .touched address value _ => some { address, value }
  | .started .. | .retired .. | .faulted .. => none

/-- The entry of the step that session `s` takes. -/
def Entry.ofStep (p : Program) (number : Nat) (s : Session) : Entry where
  step := number
  opcode := (p.byte? s.machine.registers.pc).getD 0
  before := s.machine.registers
  ending := .ofOutcome (s.next p).machine.registers (s.stepped p).outcome
  cells := (s.stepped p).events.filterMap Cell.ofEvent?

theorem Tracer.foldl_observe {rest : List Event} (h : ∀ event ∈ rest, event.isStart = false)
    (t : Tracer) :
    rest.foldl Tracer.observe t =
      { t with cells := t.cells ++ (rest.filterMap Cell.ofEvent?).toArray } := by
  induction rest generalizing t with
  | nil => simp
  | cons event rest ih =>
    have hrest := ih (fun event' h' => h event' (List.mem_cons_of_mem event h')) (t.observe event)
    have hstart := h event List.mem_cons_self
    rw [List.foldl_cons, hrest]
    cases event with
    | started pc code => cases hstart
    | touched address value isWrite => simp [Tracer.observe, Cell.ofEvent?]
    | retired pc cycles => simp [Tracer.observe, List.filterMap_cons, Cell.ofEvent?]
    | faulted cause pc => simp [Tracer.observe, List.filterMap_cons, Cell.ofEvent?]

end Trace

namespace Progress

open Session Trace

variable {p : Program} {s : Progress}

def session (s : Progress) : Session where
  machine := s.machine
  console := s.console

/-- The entries of the next `n` steps, the first of them numbered `number`. -/
def entriesFrom (p : Program) (number n : Nat) (s : Session) : List Entry :=
  (List.range (liveSteps p n s)).map fun k => .ofStep p (number + k) ((next p)^[k] s)

theorem session_advance : (s.advance p).session = s.session.next p := rfl

theorem entries_advance (h : s.session.Live p) :
    (s.advance p).tracer.entries =
      s.tracer.entries.push (.ofStep p s.tracer.entries.size s.session) := by
  obtain ⟨-, code, rest, hb, hevents, hrest⟩ := h.step
  have hstep : s.machine.step p s.console = s.session.stepped p := rfl
  have hcode : p.byte? s.session.machine.registers.pc = some code := hb
  simp only [advance, hstep, hevents, List.foldl_cons, Tracer.foldl_observe hrest, Tracer.record,
    Tracer.observe, Entry.ofStep, hcode, Option.getD_some]
  simp [List.filterMap_cons, Cell.ofEvent?, session, next]

theorem entriesFrom_succ {number n : Nat} {s : Session} (h : s.Live p) :
    entriesFrom p number (n + 1) s =
      .ofStep p number s :: entriesFrom p (number + 1) n (s.next p) := by
  simp only [entriesFrom, liveSteps_succ h, List.range_succ_eq_map, List.map_cons, List.map_map]
  congr 1
  apply List.map_congr_left
  intro k _
  simp [Nat.add_comm 1 k, Nat.add_assoc, Function.iterate_succ_apply]

theorem entriesFrom_of_not_live {number n : Nat} {s : Session} (h : ¬ s.Live p) :
    entriesFrom p number n s = [] := by
  rw [entriesFrom, liveSteps_of_not_live h, List.range_zero, List.map_nil]

/-- The first entries are those of as many steps. -/
theorem take_entriesFrom (p : Program) (number k n : Nat) (s : Session) :
    (entriesFrom p number n s).take k = entriesFrom p number (min k n) s := by
  rw [entriesFrom, entriesFrom, ← List.map_take, List.take_range, liveSteps_min]

/-- By induction on the bound: a loop that starts inside the program takes one step by hand and goes
on, unless that step halts the machine and further steps would change nothing. -/
theorem proceed_of_live (h : s.session.Live p) (bound : Nat) :
    (s.proceed p bound).session = (next p)^[bound] s.session ∧
      (s.proceed p bound).tracer.entries.toList =
        s.tracer.entries.toList ++ entriesFrom p s.tracer.entries.size bound s.session := by
  induction bound generalizing s with
  | zero =>
    have hinside : p.contains s.machine.registers.pc = true := h.inside
    rw [proceed, if_pos hinside]
    exact ⟨rfl, by simp [entriesFrom, liveSteps]⟩
  | succ bound ih =>
    have hinside : p.contains s.machine.registers.pc = true := h.inside
    rw [proceed, if_pos hinside, entriesFrom_succ h, Function.iterate_succ_apply, ← session_advance]
    simp only
    split
    case isTrue hh =>
      have hhalted : (s.advance p).session.machine.phase.isHalted = true := hh
      have hnot := not_live_of_halted (p := p) hhalted
      rw [iterate_of_halted hhalted, entriesFrom_of_not_live hnot, entries_advance h]
      simp
    case isFalse hh =>
      have hnext : (s.advance p).session.Live p := live_next h hh
      obtain ⟨hsession, hentries⟩ := ih hnext
      refine ⟨hsession, ?_⟩
      rw [hentries, entries_advance h]
      simp [session_advance]

/-- A loop that starts outside the program halts without a step. -/
theorem proceed_of_outside (hout : p.contains s.machine.registers.pc = false) (bound : Nat) :
    s.proceed p bound = { s with machine := s.machine.halt .programEnd } := by
  unfold proceed
  simp [hout]

end Progress

open Session Trace

variable {p : Program} {inputs : List UInt16} {config : Config}

theorem live_start_iff : (start inputs config).Live p ↔ p.isEmpty = false := by
  have hrun : (start inputs config).machine.phase = .running := rfl
  have hpc : (start inputs config).machine.registers.pc.toNat = 0 := rfl
  constructor
  · intro h
    have hlt := of_decide_eq_true h.inside
    simp [Program.isEmpty]
    omega
  · intro h
    refine ⟨hrun, decide_eq_true ?_⟩
    simp only [Program.isEmpty, beq_eq_false_iff_ne] at h
    omega

/-- The session that as many steps lead to as a run may take. -/
def Session.final (p : Program) (inputs : List UInt16) (config : Config) : Session :=
  (next p)^[config.maxSteps] (start inputs config)

/-- All of a run but whether it halted: an empty program halts also where no step is allowed. -/
theorem run_eq (p : Program) (inputs : List UInt16) (config : Config) :
    (run p inputs config).trace =
        Progress.entriesFrom p 0 config.maxSteps (start inputs config) ∧
      (run p inputs config).final = (Session.final p inputs config).machine.registers ∧
      (run p inputs config).outputs = (Session.final p inputs config).console.outputs.toList ∧
      (run p inputs config).error = (Session.final p inputs config).machine.phase.fault? ∧
      (run p inputs config).halted =
        (p.isEmpty || (Session.final p inputs config).machine.phase.isHalted) := by
  let first : Progress := { machine := .fresh config, console := .ofInputs inputs }
  have hfirst : first.session = start inputs config := rfl
  have hrun : run p inputs config =
      { program := p
        trace := (first.proceed p config.maxSteps).tracer.entries.toList
        halted := (first.proceed p config.maxSteps).session.machine.phase.isHalted
        error := (first.proceed p config.maxSteps).session.machine.phase.fault?
        outputs := (first.proceed p config.maxSteps).session.console.outputs.toList
        final := (first.proceed p config.maxSteps).session.machine.registers } := rfl
  rw [hrun]
  cases hempty : p.isEmpty with
  | false =>
    have hlive : first.session.Live p := live_start_iff.2 hempty
    obtain ⟨hsession, hentries⟩ := Progress.proceed_of_live hlive config.maxSteps
    rw [hsession, hentries]
    exact ⟨rfl, rfl, rfl, rfl, rfl⟩
  | true =>
    have hnot : ¬ (start inputs config).Live p := by simp [live_start_iff, hempty]
    have hout : p.contains first.machine.registers.pc = false := by
      rcases not_live_iff.1 hnot with hhalted | ⟨-, hout⟩
      · cases hhalted
      · exact hout
    obtain ⟨hregisters, -, hconsole, hfault⟩ := iterate_of_not_live hnot config.maxSteps
    rw [Progress.proceed_of_outside hout, Session.final, hregisters, hconsole, hfault,
      Progress.entriesFrom_of_not_live hnot]
    exact ⟨rfl, rfl, rfl, rfl, rfl⟩

/-- A run is as many steps by hand as it may take, whatever watches them, and it has an entry for
each step that reports the start of an instruction. Only an empty program that may take no step is
halted by the run and not by the steps. -/
theorem run_eq_steps {σ : Type} (observe : σ → Event → σ) (sink : σ) (p : Program)
    (inputs : List UInt16) (config : Config) :
    let stepped := fun k : Nat => (Watched.next observe p)^[k]
      { machine := .fresh config, console := .ofInputs inputs, sink }
    let last := stepped config.maxSteps
    let result := run p inputs config
    result.final = last.machine.registers ∧
      result.outputs = last.console.outputs.toList ∧
      result.error = last.machine.phase.fault? ∧
      result.trace.length = (List.range config.maxSteps).countP (fun k =>
        ((stepped k).machine.step p (stepped k).console).events.any Event.isStart) ∧
      if p.isEmpty ∧ config.maxSteps = 0 then
        result.halted = true ∧ last.machine.phase = .running
      else result.halted = last.machine.phase.isHalted := by
  intro stepped last result
  have hsession : ∀ k, (stepped k).toSession = (next p)^[k] (start inputs config) := by
    intro k
    exact Watched.toSession_iterate observe p k _
  have hlast : last.toSession = Session.final p inputs config := hsession config.maxSteps
  obtain ⟨htrace, hfinal, houtputs, herror, hhalted⟩ := run_eq p inputs config
  rw [← hlast] at hfinal houtputs herror hhalted
  refine ⟨hfinal, houtputs, herror, ?_, ?_⟩
  · rw [htrace, Progress.entriesFrom, List.length_map, List.length_range, ← countP_starts]
    congr 1
    funext k
    rw [← hsession k]
    rfl
  · rw [hhalted]
    by_cases hempty : p.isEmpty = true
    · have hnot : ¬ (start inputs config).Live p := by simp [live_start_iff, hempty]
      rw [hempty, Bool.true_or]
      split
      case isTrue h =>
        refine ⟨rfl, ?_⟩
        rw [hlast, Session.final, h.2]
        rfl
      case isFalse h =>
        obtain ⟨n, hn⟩ := Nat.exists_eq_succ_of_ne_zero fun hzero => h ⟨rfl, hzero⟩
        rw [hlast, Session.final, hn]
        exact (isHalted_iterate_succ hnot n).symm
    · simp [hempty]

end WordMachine
