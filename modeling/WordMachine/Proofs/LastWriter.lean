import Mathlib.Algebra.Group.Nat.Defs
import Mathlib.Data.List.Basic
import Mathlib.Data.List.Induction
import WordMachine.Proofs.Arithmetic
import WordMachine.Status.Update

/-! Status updates one after another: each flag shows what the last update that sets it has set, and
the bits that no update sets are as they were. -/
namespace WordMachine.Status

variable {s : Status} {mask : UInt8} {on : Bool} {i : Nat}

/-- A bit of the status byte. -/
def bit (s : Status) (i : Nat) : Bool := s.toByte.toNat.testBit i

theorem bit_ofByte (p : UInt8) (i : Nat) : (ofByte p).bit i = p.toNat.testBit i := by
  rw [bit, toByte_ofByte]

theorem bit_of_le (h : 8 ≤ i) : s.bit i = false := by
  apply Nat.testBit_lt_two_pow
  calc s.toByte.toNat < 2 ^ 8 := s.toByte.toNat_lt
    _ ≤ 2 ^ i := Nat.pow_le_pow_right (by omega) h

theorem testBit_not (b : UInt8) (i : Nat) :
    (~~~b).toNat.testBit i = (decide (i < 8) && !b.toNat.testBit i) := by
  have h := BitVec.getLsbD_not (x := b.toBitVec) (i := i)
  simpa [BitVec.getLsbD] using h

/-- The bits of a mask that can be written. -/
def writable (mask : UInt8) (i : Nat) : Bool := (mask &&& activeMask).toNat.testBit i

theorem writable_of_two_pow {k : Nat} (h : (mask &&& activeMask).toNat = 2 ^ k) :
    writable mask i = decide (i = k) := by
  rw [writable, h, Nat.testBit_two_pow]
  simp only [eq_comm]

/-- An assignment sets the bits of its mask that can be written, in any status byte. -/
theorem bit_assign : (s.assign mask on).bit i = if writable mask i then on else s.bit i := by
  rw [assign, bit_ofByte]
  cases on with
  | true =>
    rw [if_pos rfl, UInt8.toNat_or, Nat.testBit_or, ← writable]
    cases writable mask i <;> simp [bit]
  | false =>
    rw [if_neg (by decide), UInt8.toNat_and, Nat.testBit_and, testBit_not, ← writable]
    cases writable mask i
    · by_cases hi : i < 8
      · simp [hi, bit]
      · have hbit : s.bit i = false := bit_of_le (by omega)
        simp [hi, hbit]
    · simp

theorem assign_eq :
    s.assign mask on =
      { carry := if writable mask 0 then on else s.carry
        zero := if writable mask 1 then on else s.zero
        interruptDisable := if writable mask 2 then on else s.interruptDisable
        decimal := if writable mask 3 then on else s.decimal
        breakMark := if writable mask 4 then on else s.breakMark
        spare := if writable mask 5 then on else s.spare
        overflow := if writable mask 6 then on else s.overflow
        negative := if writable mask 7 then on else s.negative } := by
  obtain ⟨b, rfl⟩ : ∃ b, s = ofByte b := ⟨s.toByte, (ofByte_toByte s).symm⟩
  have hbit (i : Nat) : ((ofByte b).assign mask on).toByte.toNat.testBit i =
      if writable mask i then on else b.toNat.testBit i := by
    rw [← bit_ofByte b i]
    exact bit_assign
  rw [← ofByte_toByte ((ofByte b).assign mask on)]
  generalize ((ofByte b).assign mask on).toByte = b' at hbit ⊢
  simp only [ofByte, hbit]

/-- The last value that is found in a list. -/
def last? {α β : Type} (f : α → Option β) (xs : List α) : Option β := (xs.filterMap f).getLast?

/-- The flags that updates set. -/
inductive Flag
  | carry | zero | overflow | negative

def Flag.index : Flag → Nat
  | carry => 0
  | zero => 1
  | overflow => 6
  | negative => 7

/-- The byte in which that flag alone is set. -/
def Flag.byte (f : Flag) : UInt8 := UInt8.ofNat (2 ^ f.index)

@[simp] theorem writable_byte (f : Flag) : writable f.byte i = decide (i = f.index) := by
  cases f <;> exact writable_of_two_pow rfl

/-- One assignment after another, each with its flag for a mask. -/
def assignAll (s : Status) (as : List (Flag × Bool)) : Status :=
  as.foldl (fun s a => s.assign a.1.byte a.2) s

/-- The value that an assignment gives to a bit. -/
def assigned? (i : Nat) (a : Flag × Bool) : Option Bool := if i = a.1.index then some a.2 else none

/-- A bit shows what was last assigned to it, because an assignment leaves the other bits alone. -/
theorem bit_assignAll (as : List (Flag × Bool)) (s : Status) (i : Nat) :
    (s.assignAll as).bit i = (last? (assigned? i) as).getD (s.bit i) := by
  induction as using List.reverseRecOn with
  | nil => rfl
  | append_singleton as a ih =>
    rw [assignAll, List.foldl_append, List.foldl_cons, List.foldl_nil, bit_assign, ← assignAll, ih,
      writable_byte]
    by_cases hi : i = a.1.index <;> simp [last?, assigned?, hi]

namespace Update

/-- Zero and sign of a word. -/
def describing (w : UInt16) : List (Flag × Bool) :=
  [(.zero, w == 0), (.negative, Word.isNegative w)]

/-- The flags that an update sets, one after another. -/
def assignments : Update → List (Flag × Bool)
  | keep => []
  | zeroNegative result => describing result
  | compare difference carry => describing difference ++ [(.carry, carry)]
  | arithmetic result carry overflow =>
    describing result ++ [(.carry, carry), (.overflow, overflow)]
  | clearCarry => [(.carry, false)]

theorem apply_eq_assignAll (u : Update) (s : Status) :
    u.apply s = s.assignAll u.assignments := by
  cases u
  all_goals
    simp only [assignAll, assignments, describing, List.cons_append, List.nil_append,
      List.foldl_cons, List.foldl_nil, assign_eq]
    rfl

/-- The carry that an update sets. -/
def carry? : Update → Option Bool
  | compare _ carry | arithmetic _ carry _ => some carry
  | clearCarry => some false
  | keep | zeroNegative _ => none

/-- The overflow that an update sets. -/
def overflow? : Update → Option Bool
  | arithmetic _ _ overflow => some overflow
  | keep | zeroNegative _ | compare .. | clearCarry => none

/-- The word that an update describes by zero and sign. -/
def described? : Update → Option UInt16
  | zeroNegative w | compare w _ | arithmetic w _ _ => some w
  | keep | clearCarry => none

/-- What an update sets a bit of the status byte to. -/
def set? (u : Update) : Nat → Option Bool
  | 0 => u.carry?
  | 1 => u.described?.map (· == 0)
  | 6 => u.overflow?
  | 7 => u.described?.map Word.isNegative
  | _ => none

theorem filterMap_assignments (u : Update) (i : Nat) :
    u.assignments.filterMap (assigned? i) = (u.set? i).toList := by
  unfold set?
  split
  case h_1 | h_2 | h_3 | h_4 =>
    cases u <;>
      simp [assignments, describing, assigned?, Flag.index, carry?, overflow?, described?]
  case h_5 h0 h1 h6 h7 =>
    have hne : i ≠ 0 ∧ i ≠ 1 ∧ i ≠ 6 ∧ i ≠ 7 := ⟨h0, h1, h6, h7⟩
    cases u <;> simp [assignments, describing, assigned?, Flag.index, hne]

/-- One update after another. -/
def applyAll (us : List Update) (s : Status) : Status := us.foldl (fun s u => u.apply s) s

theorem applyAll_eq_assignAll (us : List Update) (s : Status) :
    applyAll us s = s.assignAll (us.flatMap assignments) := by
  induction us generalizing s with
  | nil => rfl
  | cons u us ih =>
    rw [List.flatMap_cons, assignAll, List.foldl_append, ← assignAll, ← assignAll,
      ← apply_eq_assignAll, ← ih]
    rfl

theorem bit_applyAll (us : List Update) (s : Status) (i : Nat) :
    (applyAll us s).bit i = (last? (·.set? i) us).getD (s.bit i) := by
  have hassigned : (us.flatMap assignments).filterMap (assigned? i) = us.filterMap (·.set? i) := by
    rw [List.filterMap_flatMap, List.filterMap_eq_flatMap_toList]
    simp only [filterMap_assignments]
  rw [applyAll_eq_assignAll, bit_assignAll, last?, hassigned, ← last?]

/-- The bits of a status byte `p'` that updates have made of a status byte `p`. -/
structure LastWriter (us : List Update) (p p' : UInt8) : Prop where
  reserved : ∀ i, 2 ≤ i → i ≤ 5 → p'.toNat.testBit i = p.toNat.testBit i
  carry : p'.toNat.testBit 0 = (last? carry? us).getD (p.toNat.testBit 0)
  overflow : p'.toNat.testBit 6 = (last? overflow? us).getD (p.toNat.testBit 6)
  zero : p'.toNat.testBit 1 =
    ((last? described? us).map fun w => decide (w.toNat = 0)).getD (p.toNat.testBit 1)
  negative : p'.toNat.testBit 7 =
    ((last? described? us).map fun w => w.toNat.testBit 15).getD (p.toNat.testBit 7)

theorem last?_none (us : List Update) : last? (fun _ => (none : Option Bool)) us = none := by
  simp [last?]

theorem last?_described (f : UInt16 → Bool) (us : List Update) :
    last? (fun u => u.described?.map f) us = (last? described? us).map f := by
  rw [last?, last?, ← List.getLast?_map, List.map_filterMap]

theorem isNegative_eq_testBit (w : UInt16) : Word.isNegative w = w.toNat.testBit 15 := by
  rw [Word.isNegative_eq_msb, BitVec.msb_eq_getLsbD_last]
  rfl

/-- Updates compose by the last writer of each flag, whatever byte they start from. -/
theorem lastWriter_applyAll (us : List Update) (p : UInt8) :
    LastWriter us p (applyAll us (ofByte p)).toByte := by
  have hbit (i : Nat) : (applyAll us (ofByte p)).toByte.toNat.testBit i =
      (last? (·.set? i) us).getD (p.toNat.testBit i) := by
    rw [← bit_ofByte p i]
    exact bit_applyAll us (ofByte p) i
  constructor
  case reserved =>
    intro i h2 h5
    have hset (u : Update) : u.set? i = none := by
      unfold set?
      split <;> first | rfl | omega
    simp only [hbit, hset, last?_none, Option.getD_none]
  case carry => exact hbit 0
  case overflow => exact hbit 6
  case zero => simp only [hbit, set?, last?_described, Word.beq_zero_eq_decide]
  case negative =>
    have hsign : Word.isNegative = fun w => w.toNat.testBit 15 := funext isNegative_eq_testBit
    simp only [hbit, set?, last?_described, hsign]

/-- A comparison sets the carry and describes a word, and both give way to what comes later. -/
example : (applyAll [.compare 0 true, .clearCarry, .zeroNegative 0x8000] (ofByte 0xFF)).toByte =
    0xFC := by decide

end Update

end WordMachine.Status
