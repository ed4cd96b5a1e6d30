import Mathlib.Data.List.Induction
import WordMachine.Proofs.MemorySize
import WordMachine.Proofs.TwoPhases

/-! Memory under reads and writes in any order: it has as many cells as were asked for, within its
bounds, and each of them holds what was last written to it. An access past the end answers with a
fault and changes nothing. -/
namespace WordMachine

inductive Access
  | read (address : UInt16)
  | write (address value : UInt16)

/-- A read answers with a word, and a write without one. -/
abbrev Answer := Except Fault (Option UInt16)

namespace Access

def address : Access → UInt16
  | .read address | .write address _ => address

@[simp] theorem address_read (address : UInt16) : (read address).address = address := rfl

@[simp] theorem address_write (address value : UInt16) : (write address value).address = address :=
  rfl

/-- What the access has written at `address`; one that fails has written nothing. -/
def written? (address : UInt16) : Access × Answer → Option UInt16
  | (.write address' value, .ok _) => if address' = address then some value else none
  | (.write .., .error _) | (.read _, _) => none

end Access

namespace Memory

variable {m : Memory} {a : Access} {accesses : List Access} {address value : UInt16}
  {past later : List (Access × Answer)} {answer : Answer} {cause : Fault} {words : Nat}

/-- The answer to an access, and the memory that is there then. -/
def access (m : Memory) : Access → Answer × Memory
  | .read address => ((m.read address).map some, m)
  | .write address value =>
    match m.write address value with
    | .ok m' => (.ok none, m')
    | .error cause => (.error cause, m)

def accessAll (m : Memory) (accesses : List Access) : Memory :=
  accesses.foldl (fun m a => (m.access a).2) m

/-- The accesses in their order, each with its answer. -/
def log (m : Memory) : List Access → List (Access × Answer)
  | [] => []
  | a :: accesses => (a, (m.access a).1) :: (m.access a).2.log accesses

theorem index_eq_error_iff {limit : Nat} : index address limit = .error cause ↔
    limit ≤ address.toNat ∧ cause = .addressOutOfRange address limit := by
  unfold index
  split
  case isTrue h => simp [Nat.not_le.2 h]
  case isFalse h => simp [Nat.le_of_not_lt h, eq_comm]

theorem access_of_le (h : m.size ≤ a.address.toNat) :
    m.access a = (.error (.addressOutOfRange a.address m.size), m) := by
  cases a with
  | read address =>
    rw [Access.address_read] at *
    rw [access, read_of_le h]
    rfl
  | write address value =>
    rw [Access.address_write] at *
    simp only [access, write_of_le h]

theorem access_read (h : address.toNat < m.size) :
    m.access (.read address) = (.ok (some (m.cell address)), m) := by
  rw [access, read_of_lt h]
  rfl

theorem access_write (h : address.toNat < m.size) :
    m.access (.write address value) = (.ok none, m.set address value) := by
  simp only [access, write_of_lt h]

theorem exists_answer (h : a.address.toNat < m.size) : ∃ word, (m.access a).1 = .ok word := by
  cases a with
  | read address => exact ⟨_, congrArg Prod.fst (access_read h)⟩
  | write address value => exact ⟨_, congrArg Prod.fst (access_write h)⟩

/-- Nothing but its address makes an access fail. -/
theorem answer_eq_error_iff : (m.access a).1 = .error cause ↔
    m.size ≤ a.address.toNat ∧ cause = .addressOutOfRange a.address m.size := by
  constructor
  · intro h
    have hle : m.size ≤ a.address.toNat := by
      by_contra hlt
      obtain ⟨word, hword⟩ := exists_answer (Nat.lt_of_not_le hlt)
      rw [hword] at h
      cases h
    rw [access_of_le hle] at h
    cases h
    exact ⟨hle, rfl⟩
  · rintro ⟨hle, rfl⟩
    rw [access_of_le hle]

theorem access_snd_of_error (h : (m.access a).1 = .error cause) : (m.access a).2 = m := by
  rw [access_of_le (answer_eq_error_iff.1 h).1]

theorem size_access : (m.access a).2.size = m.size := by
  cases a with
  | read address => rfl
  | write address value =>
    by_cases h : address.toNat < m.size
    · rw [access_write h, size_set]
    · rw [access_of_le (a := .write address value) (Nat.le_of_not_lt h)]

/-- A cell changes by what is written to it, and by nothing else. -/
theorem cell_access (h : address.toNat < m.size) : (m.access a).2.cell address =
    (Access.written? address (a, (m.access a).1)).getD (m.cell address) := by
  cases a with
  | read address' => rfl
  | write address' value =>
    by_cases hlt : address'.toNat < m.size
    · rw [access_write hlt]
      by_cases heq : address' = address
      · subst heq
        simp [Access.written?, cell_set hlt]
      · simp [Access.written?, heq, cell_set_of_ne heq]
    · rw [access_of_le (a := .write address' value) (Nat.le_of_not_lt hlt)]
      rfl

theorem accessAll_concat : m.accessAll (accesses ++ [a]) = ((m.accessAll accesses).access a).2 := by
  simp [accessAll]

theorem log_append (m : Memory) (as bs : List Access) :
    m.log (as ++ bs) = m.log as ++ (m.accessAll as).log bs := by
  induction as generalizing m with
  | nil => rfl
  | cons a as ih =>
    rw [List.cons_append, log, log, ih, List.cons_append]
    rfl

theorem map_fst_log (m : Memory) (accesses : List Access) :
    (m.log accesses).map Prod.fst = accesses := by
  induction accesses generalizing m with
  | nil => rfl
  | cons a accesses ih => rw [log, List.map_cons, ih]

theorem size_accessAll (m : Memory) (accesses : List Access) :
    (m.accessAll accesses).size = m.size := by
  induction accesses using List.reverseRecOn with
  | nil => rfl
  | append_singleton accesses a ih => rw [accessAll_concat, size_access, ih]

/-- By induction on the accesses from the right: the last one either has written the cell or leaves
it to those before. -/
theorem cell_accessAll (h : address.toNat < m.size) (accesses : List Access) :
    (m.accessAll accesses).cell address =
      ((m.log accesses).filterMap (Access.written? address)).getLast?.getD (m.cell address) := by
  induction accesses using List.reverseRecOn with
  | nil => rfl
  | append_singleton accesses a ih =>
    have hlt : address.toNat < (m.accessAll accesses).size := by rwa [size_accessAll]
    rw [accessAll_concat, cell_access hlt, ih, log_append, List.filterMap_append]
    cases hw : Access.written? address (a, ((m.accessAll accesses).access a).1) <;> simp [log, hw]

/-- What stands in a log has been answered by the memory that the entries before it lead to. -/
theorem exists_of_log (h : m.log accesses = past ++ (a, answer) :: later) :
    ∃ before, past = m.log before ∧ answer = ((m.accessAll before).access a).1 := by
  induction past generalizing m accesses with
  | nil =>
    cases accesses with
    | nil => cases h
    | cons a' accesses =>
      cases h
      exact ⟨[], rfl, rfl⟩
  | cons entry past ih =>
    cases accesses with
    | nil => cases h
    | cons a' accesses =>
      rw [log, List.cons_append] at h
      obtain ⟨rfl, hrest⟩ := List.cons.inj h
      obtain ⟨before, hpast, hanswer⟩ := ih hrest
      refine ⟨a' :: before, ?_, hanswer⟩
      rw [log, hpast]

/-- How an array of `limit` cells, all of them zero at first, answers an access after others. -/
structure Answers (limit : Nat) (past : List (Access × Answer)) (a : Access) (answer : Answer) :
    Prop where
  fails_iff : ∀ cause, answer = .error cause ↔
    limit ≤ a.address.toNat ∧ cause = .addressOutOfRange a.address limit
  indexed : ∀ cause, index a.address limit = .error cause ↔ answer = .error cause
  reads : ∀ address word, a = .read address → answer = .ok word →
    word = some ((past.filterMap (Access.written? address)).getLast?.getD 0)

theorem answers_access (words : Nat) (before : List Access) (a : Access) :
    Answers (zeroed words).size ((zeroed words).log before) a
      (((zeroed words).accessAll before).access a).1 where
  fails_iff cause := by rw [answer_eq_error_iff, size_accessAll]
  indexed cause := by rw [answer_eq_error_iff, size_accessAll, index_eq_error_iff]
  reads := by
    rintro address word rfl h
    by_cases hlt : address.toNat < (zeroed words).size
    · rw [access_read (by rwa [size_accessAll])] at h
      cases h
      rw [cell_accessAll hlt, cell_zeroed]
    · rw [access_of_le (by rw [size_accessAll]; exact Nat.le_of_not_lt hlt)] at h
      cases h

/-- What memory of `words` cells is to those that access it. -/
structure BoundedArray (words : Nat) (accesses : List Access) : Prop where
  size : ∀ past, past <+: accesses →
    ((zeroed words).accessAll past).size = max 1 (min words 65536)
  answered : ((zeroed words).log accesses).map Prod.fst = accesses
  answers : ∀ past a answer later,
    (zeroed words).log accesses = past ++ (a, answer) :: later →
      Answers (max 1 (min words 65536)) past a answer
  kept : ∀ past a later, accesses = past ++ a :: later →
    (∃ address, a = .read address) ∨
      (∃ cause, (((zeroed words).accessAll past).access a).1 = .error cause) →
    (zeroed words).accessAll (past ++ [a]) = (zeroed words).accessAll past
  full : 65536 ≤ words → ∀ a answer, (a, answer) ∈ (zeroed words).log accesses →
    ∃ word, answer = .ok word

/-- Memory is a bounded array, whatever size it is asked to have and however it is accessed. -/
theorem boundedArray (words : Nat) (accesses : List Access) : BoundedArray words accesses where
  size past _ := by rw [size_accessAll, size_zeroed]
  answered := map_fst_log _ accesses
  answers := by
    intro past a answer later h
    obtain ⟨before, rfl, rfl⟩ := exists_of_log h
    rw [← size_zeroed]
    exact answers_access words before a
  kept := by
    rintro past a later - (⟨address, rfl⟩ | ⟨cause, h⟩)
    · rw [accessAll_concat]
      rfl
    · rw [accessAll_concat, access_snd_of_error h]
  full := by
    intro hwords a answer hmem
    obtain ⟨past, later, h⟩ := List.append_of_mem hmem
    obtain ⟨before, -, rfl⟩ := exists_of_log h
    apply exists_answer
    have hlt := a.address.toNat_lt
    rw [size_accessAll, size_zeroed]
    omega

/-- A write past the end is not read back, here or anywhere. -/
example :
    ((zeroed 2).log [.write 0 7, .write 2 9, .read 2, .read 0, .read 1]).map Prod.snd =
      [.ok none, .error (.addressOutOfRange 2 2), .error (.addressOutOfRange 2 2), .ok (some 7),
        .ok (some 0)] := rfl

end Memory

end WordMachine
