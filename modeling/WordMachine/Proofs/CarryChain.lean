import Mathlib.Data.List.Induction
import Mathlib.Data.Nat.Digits.Defs
import Mathlib.Tactic.LinearCombination
import WordMachine.Proofs.Arithmetic

/-! Numbers of many words: a chain of word operations, each given the carry of the one before it,
adds and subtracts them, and its last carry and overflow are those of the whole numbers. -/
namespace WordMachine

namespace Word

variable {ws : List UInt16} {w : UInt16} {base low k z : Int} {n : Nat}

/-- The number that words write, the lowest word first. -/
def number (ws : List UInt16) : Nat := Nat.ofDigits 65536 (ws.map UInt16.toNat)

/-- The two's complement reading of all the words together. -/
def signedNumber (ws : List UInt16) : Int :=
  if 2 ^ (16 * ws.length - 1) ≤ number ws then number ws - 2 ^ (16 * ws.length) else number ws

/-- The numbers that `n` words have room for in two's complement. -/
def FitsSigned (n : Nat) (z : Int) : Prop := -2 ^ (16 * n - 1) ≤ z ∧ z ≤ 2 ^ (16 * n - 1) - 1

instance (n : Nat) (z : Int) : Decidable (FitsSigned n z) :=
  inferInstanceAs (Decidable (-2 ^ (16 * n - 1) ≤ z ∧ z ≤ 2 ^ (16 * n - 1) - 1))

theorem two_pow_words (n : Nat) : (2 : Int) ^ (16 * n) = 65536 ^ n := by
  rw [pow_mul]
  norm_num

/-- Half of the range that the words have, written with the weight of the highest word. -/
theorem two_pow_sign (n : Nat) : (2 : Int) ^ (16 * (n + 1) - 1) = 32768 * 65536 ^ n := by
  rw [show 16 * (n + 1) - 1 = 15 + 16 * n by omega, pow_add, two_pow_words]
  norm_num

theorem number_concat : number (ws ++ [w]) = number ws + 65536 ^ ws.length * w.toNat := by
  simp [number, Nat.ofDigits_append]

theorem number_lt (ws : List UInt16) : (number ws : Int) < 65536 ^ ws.length := by
  have hdigits : ∀ x ∈ ws.map UInt16.toNat, x < 65536 := by
    intro x hx
    obtain ⟨w, -, rfl⟩ := List.mem_map.1 hx
    exact w.toNat_lt
  have hlt := Nat.ofDigits_lt_base_pow_length (by decide) hdigits
  rw [List.length_map] at hlt
  exact_mod_cast hlt

/-- What stands below the highest word never decides a comparison with a multiple of its weight. -/
theorem mul_le_add_mul_iff (hlow : 0 ≤ low) (hlt : low < base) :
    k * base ≤ low + base * z ↔ k ≤ z := by
  have hbase : 0 < base := lt_of_le_of_lt hlow hlt
  rw [← Int.le_ediv_iff_mul_le hbase, Int.add_mul_ediv_left low z hbase.ne',
    Int.ediv_eq_zero_of_lt hlow hlt, zero_add]

/-- The sign of a number is that of its highest word. -/
theorem signedNumber_concat :
    signedNumber (ws ++ [w]) = number ws + 65536 ^ ws.length * signed w.toNat := by
  have hsign : (2 ^ (16 * (ws ++ [w]).length - 1) : Int) ≤ number (ws ++ [w]) ↔
      32768 ≤ (w.toNat : Int) := by
    rw [List.length_append, List.length_singleton, two_pow_sign, number_concat]
    push_cast
    exact mul_le_add_mul_iff (Int.natCast_nonneg _) (number_lt ws)
  have hcast : 2 ^ (16 * (ws ++ [w]).length - 1) ≤ number (ws ++ [w]) ↔ 32768 ≤ w.toNat := by
    exact_mod_cast hsign
  by_cases hneg : 32768 ≤ w.toNat
  · rw [signedNumber, if_pos (hcast.2 hneg), signed, if_pos hneg, number_concat, two_pow_words,
      List.length_append, List.length_singleton, pow_succ]
    push_cast
    ring
  · rw [signedNumber, if_neg (mt hcast.1 hneg), signed, if_neg hneg, number_concat]
    push_cast
    ring

theorem fitsSigned_iff (hlow : 0 ≤ low) (hlt : low < 65536 ^ n) :
    FitsSigned (n + 1) (low + 65536 ^ n * z) ↔ HoldsSigned z := by
  have hleast : -32768 * 65536 ^ n ≤ low + 65536 ^ n * z ↔ -32768 ≤ z :=
    mul_le_add_mul_iff hlow hlt
  have hmost : 32768 * 65536 ^ n ≤ low + 65536 ^ n * z ↔ 32768 ≤ z :=
    mul_le_add_mul_iff hlow hlt
  rw [FitsSigned, HoldsSigned, two_pow_sign]
  constructor
  · rintro ⟨hge, hle⟩
    have hz : ¬ 32768 ≤ z := by
      rw [← hmost]
      omega
    exact ⟨hleast.1 (by omega), by omega⟩
  · rintro ⟨hge, hle⟩
    have hz : ¬ 32768 ≤ z := by omega
    rw [← hmost] at hz
    have hlowest := hleast.2 hge
    exact ⟨by omega, by omega⟩

end Word

namespace Alu

open Word

/-- The words that a chain of operations leaves, the lowest first, and the flags of the last one. -/
structure Chain where
  words : List UInt16
  carry : Bool
  overflow : Bool
  deriving DecidableEq, Repr

/-- One more operation, on the next higher pair of words. -/
def Chain.extend (op : UInt16 → UInt16 → Bool → Result) (s : Chain) (pair : UInt16 × UInt16) :
    Chain :=
  let r := op pair.1 pair.2 s.carry
  { words := s.words ++ [r.value], carry := r.carry, overflow := r.overflow }

/-- An operation on pairs of words from the lowest up, each given the carry that the last one
left. -/
def chain (op : UInt16 → UInt16 → Bool → Result) (carry : Bool) (pairs : List (UInt16 × UInt16)) :
    Chain :=
  pairs.foldl (Chain.extend op) { words := [], carry, overflow := false }

/-- An operation on two words whose result, its carry counted, is `x + sign * y` and the carry that
it took, and whose overflow says so of the signed words. -/
structure Computes (op : UInt16 → UInt16 → Bool → Result) (sign : Int) (weight : Bool → Int) :
    Prop where
  value (x y : UInt16) (carry : Bool) :
    ((op x y carry).value.toNat : Int) + 65536 * weight (op x y carry).carry =
      x.toNat + sign * y.toNat + weight carry
  overflow (x y : UInt16) (carry : Bool) :
    (op x y carry).overflow = true ↔
      ¬ HoldsSigned (signed x.toNat + sign * signed y.toNat + weight carry)

theorem computes_addWithCarry : Computes addWithCarry 1 fun carry => carry.toNat where
  value x y carry := by
    have hx := x.toNat_lt
    have hy := y.toNat_lt
    have hcarry := carry_le_one carry
    rw [toNat_value_addWithCarry, carry_addWithCarry, wrap]
    by_cases hover : (65536 : Int) ≤ x.toNat + y.toNat + carry.toNat
    · simp only [hover, decide_true, Bool.toNat_true]
      omega
    · simp only [hover, decide_false, Bool.toNat_false]
      omega
  overflow x y carry := by rw [overflow_addWithCarry, decide_eq_true_iff, one_mul]

/-- The carry of a subtraction says that nothing was borrowed, so that a clear one weighs less. -/
theorem computes_subWithBorrow : Computes subWithBorrow (-1) fun carry => carry.toNat - 1 where
  value x y carry := by
    have hx := x.toNat_lt
    have hy := y.toNat_lt
    have hcarry := carry_le_one carry
    rw [toNat_value_subWithBorrow, carry_subWithBorrow, wrap]
    by_cases hborrow : (0 : Int) ≤ x.toNat - y.toNat - (1 - carry.toNat)
    · simp only [hborrow, decide_true, Bool.toNat_true]
      omega
    · simp only [hborrow, decide_false, Bool.toNat_false]
      omega
  overflow x y carry := by
    have hsum : signed x.toNat + -1 * signed y.toNat + ((carry.toNat : Int) - 1) =
        signed x.toNat - signed y.toNat - (1 - carry.toNat) := by ring
    rw [overflow_subWithBorrow, decide_eq_true_iff, hsum]

variable {op : UInt16 → UInt16 → Bool → Result} {sign : Int} {weight : Bool → Int} {carry : Bool}
  {pairs : List (UInt16 × UInt16)} {pair : UInt16 × UInt16}

theorem chain_concat :
    chain op carry (pairs ++ [pair]) = (chain op carry pairs).extend op pair := by
  rw [chain, List.foldl_append]
  rfl

theorem length_chain : (chain op carry pairs).words.length = pairs.length := by
  induction pairs using List.reverseRecOn with
  | nil => rfl
  | append_singleton pairs pair ih => simp [chain_concat, Chain.extend, ih]

namespace Computes

variable (h : Computes op sign weight)
include h

/-- By induction from the lowest word up: the carry that a shorter chain leaves is the one that the
next pair takes. -/
theorem number_chain (carry : Bool) (pairs : List (UInt16 × UInt16)) :
    (number (chain op carry pairs).words : Int) +
        65536 ^ pairs.length * weight (chain op carry pairs).carry =
      number (pairs.map Prod.fst) + sign * number (pairs.map Prod.snd) + weight carry := by
  induction pairs using List.reverseRecOn with
  | nil => simp [chain, number]
  | append_singleton pairs pair ih =>
    have hpair := h.value pair.1 pair.2 (chain op carry pairs).carry
    simp only [chain_concat, Chain.extend, List.map_append, List.map_singleton, number_concat,
      length_chain, List.length_append, List.length_singleton, List.length_map, pow_succ]
    push_cast
    linear_combination ih + 65536 ^ pairs.length * hpair

/-- The overflow of the highest pair tells that of the whole numbers, whatever stands below it. -/
theorem overflow_chain (carry : Bool) (hne : pairs ≠ []) :
    (chain op carry pairs).overflow = true ↔
      ¬ FitsSigned pairs.length
        (signedNumber (pairs.map Prod.fst) + sign * signedNumber (pairs.map Prod.snd) +
          weight carry) := by
  obtain ⟨low, high, rfl⟩ : ∃ low high, pairs = low ++ [high] :=
    ⟨_, _, (List.dropLast_concat_getLast hne).symm⟩
  have hlow := h.number_chain carry low
  have hlt := number_lt (chain op carry low).words
  rw [length_chain] at hlt
  have hsum : signedNumber ((low ++ [high]).map Prod.fst) +
        sign * signedNumber ((low ++ [high]).map Prod.snd) + weight carry =
      number (chain op carry low).words + 65536 ^ low.length *
        (signed high.1.toNat + sign * signed high.2.toNat + weight (chain op carry low).carry) := by
    simp only [List.map_append, List.map_singleton, signedNumber_concat, List.length_map]
    linear_combination -hlow
  rw [hsum, List.length_append, List.length_singleton,
    fitsSigned_iff (Int.natCast_nonneg _) hlt, chain_concat]
  exact h.overflow ..

variable {a b : List UInt16} {n : Nat}

theorem number_chain_zip (carry : Bool) (ha : a.length = n) (hb : b.length = n) :
    (number (chain op carry (a.zip b)).words : Int) +
        2 ^ (16 * n) * weight (chain op carry (a.zip b)).carry =
      number a + sign * number b + weight carry := by
  have hchain := h.number_chain carry (a.zip b)
  rwa [List.map_fst_zip (by omega), List.map_snd_zip (by omega), List.length_zip, ha, hb,
    Nat.min_self, ← two_pow_words] at hchain

theorem overflow_chain_zip (carry : Bool) (hn : 0 < n) (ha : a.length = n)
    (hb : b.length = n) :
    (chain op carry (a.zip b)).overflow = true ↔
      ¬ FitsSigned n (signedNumber a + sign * signedNumber b + weight carry) := by
  have hlength : (a.zip b).length = n := by rw [List.length_zip, ha, hb, Nat.min_self]
  have hne : a.zip b ≠ [] := List.length_pos_iff.1 (hlength ▸ hn)
  have hchain := h.overflow_chain carry hne
  rwa [List.map_fst_zip (by omega), List.map_snd_zip (by omega), hlength] at hchain

end Computes

/-- By taking a comparison for a subtraction that begins with nothing borrowed. -/
theorem compare_eq_subWithBorrow (x y : UInt16) :
    compare x y = ((subWithBorrow x y true).value, (subWithBorrow x y true).carry) := by
  have hvalue : (compare x y).1.toNat = (subWithBorrow x y true).value.toNat := by
    rw [toNat_compare, toNat_value_subWithBorrow]
    simp
  have hcarry : (compare x y).2 = (subWithBorrow x y true).carry := by
    rw [carry_compare, carry_subWithBorrow]
    simp
  rw [← UInt16.toNat_inj.1 hvalue, ← hcarry]

variable {a b : List UInt16} {n : Nat}

/-- What is left of an addition: the words of the sum, the carry that they have no room for, and
whether the signed sum is out of their range. -/
structure Chain.Adds (n : Nat) (a b : List UInt16) (carry : Bool) (s : Chain) : Prop where
  length : s.words.length = n
  number : number s.words + s.carry.toNat * 2 ^ (16 * n) = number a + number b + carry.toNat
  overflow : s.overflow = true ↔ ¬ FitsSigned n (signedNumber a + signedNumber b + carry.toNat)

/-- What is left of a subtraction, where a clear carry borrows one more. -/
structure Chain.Subtracts (n : Nat) (a b : List UInt16) (carry : Bool) (s : Chain) : Prop where
  length : s.words.length = n
  number : (number s.words : Int) - (1 - s.carry.toNat) * 2 ^ (16 * n) =
    number a - number b - (1 - carry.toNat)
  overflow : s.overflow = true ↔
    ¬ FitsSigned n (signedNumber a - signedNumber b - (1 - carry.toNat))

theorem length_chain_zip (ha : a.length = n) (hb : b.length = n) :
    (chain op carry (a.zip b)).words.length = n := by
  rw [length_chain, List.length_zip, ha, hb, Nat.min_self]

theorem adds_chain (hn : 0 < n) (ha : a.length = n) (hb : b.length = n) :
    (chain addWithCarry carry (a.zip b)).Adds n a b carry where
  length := length_chain_zip ha hb
  number := by
    have hchain := computes_addWithCarry.number_chain_zip carry ha hb
    zify
    linear_combination hchain
  overflow := by rw [computes_addWithCarry.overflow_chain_zip carry hn ha hb, one_mul]

theorem subtracts_chain (hn : 0 < n) (ha : a.length = n) (hb : b.length = n) :
    (chain subWithBorrow carry (a.zip b)).Subtracts n a b carry where
  length := length_chain_zip ha hb
  number := by
    have hchain := computes_subWithBorrow.number_chain_zip carry ha hb
    linear_combination hchain
  overflow := by
    have hsigned : signedNumber a - signedNumber b - (1 - carry.toNat) =
        signedNumber a + -1 * signedNumber b + ((carry.toNat : Int) - 1) := by ring
    rw [computes_subWithBorrow.overflow_chain_zip carry hn ha hb, hsigned]

/-- A chain of additions adds numbers of `n` words and a chain of subtractions subtracts them. A
comparison is a subtraction of one word whose difference is dropped. -/
theorem chain_arithmetic (hn : 0 < n) (ha : a.length = n) (hb : b.length = n) (carry : Bool) :
    (chain addWithCarry carry (a.zip b)).Adds n a b carry ∧
      (chain subWithBorrow carry (a.zip b)).Subtracts n a b carry ∧
      ∀ x y, compare x y = ((subWithBorrow x y true).value, (subWithBorrow x y true).carry) :=
  ⟨adds_chain hn ha hb, subtracts_chain hn ha hb, compare_eq_subWithBorrow⟩

/-- Thirty-two bits: the carry out of the low word reaches the sign. -/
theorem chain_into_sign :
    0 < 2 ∧ ([0xFFFF, 0x7FFF] : List UInt16).length = 2 ∧ ([1, 0] : List UInt16).length = 2 ∧
      chain addWithCarry false ([0xFFFF, 0x7FFF].zip [1, 0]) =
        { words := [0, 0x8000], carry := false, overflow := true } ∧
      Chain.Adds 2 [0xFFFF, 0x7FFF] [1, 0] false
        { words := [0, 0x8000], carry := false, overflow := true } := by
  have hchain : chain addWithCarry false ([0xFFFF, 0x7FFF].zip [1, 0]) =
      { words := [0, 0x8000], carry := false, overflow := true } := by decide
  obtain ⟨hadds, -⟩ := chain_arithmetic (n := 2) (a := [0xFFFF, 0x7FFF]) (b := [1, 0])
    (by decide) rfl rfl false
  rw [hchain] at hadds
  exact ⟨by decide, rfl, rfl, hchain, hadds⟩

end Alu

end WordMachine
