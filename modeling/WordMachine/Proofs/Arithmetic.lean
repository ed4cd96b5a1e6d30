import WordMachine.Alu

/-! Word arithmetic read in the integers: a wrapped result and its two flags say where the
unbounded result lies. -/
namespace WordMachine

namespace Word

/-- The word that an unbounded result leaves behind. -/
def wrap (z : Int) : Nat := (z % 65536).toNat

/-- The two's complement reading of a word's number. -/
def signed (n : Nat) : Int := if 32768 ≤ n then n - 65536 else n

/-- The numbers that a word has room for in two's complement. -/
def HoldsSigned (z : Int) : Prop := -32768 ≤ z ∧ z ≤ 32767

instance (z : Int) : Decidable (HoldsSigned z) :=
  inferInstanceAs (Decidable (-32768 ≤ z ∧ z ≤ 32767))

variable (a b w : UInt16)

theorem isNegative_eq_msb : isNegative w = w.toBitVec.msb := by
  simp [isNegative, BitVec.msb_eq_decide, UInt16.le_iff_toNat_le]

theorem isNegative_eq_decide : isNegative w = decide (32768 ≤ w.toNat) := by
  simp [isNegative, UInt16.le_iff_toNat_le]

theorem isNegative_and : isNegative (a &&& b) = (isNegative a && isNegative b) := by
  simp [isNegative_eq_msb]

theorem isNegative_xor : isNegative (a ^^^ b) = (isNegative a ^^ isNegative b) := by
  simp [isNegative_eq_msb]

theorem beq_zero_eq_decide : (w == 0) = decide (w.toNat = 0) := by
  simp [BEq.beq, UInt16.toNat_inj.symm]

theorem wrap_toNat : wrap w.toNat = w.toNat := by
  have := w.toNat_lt
  simp only [wrap]
  omega

theorem toNat_add : (a + b).toNat = wrap (a.toNat + b.toNat) := by
  simp only [UInt16.toNat_add, wrap]
  omega

theorem toNat_sub : (a - b).toNat = wrap (a.toNat - b.toNat) := by
  have := b.toNat_lt
  simp only [UInt16.toNat_sub, wrap]
  omega

theorem toNat_mul : (a * b).toNat = wrap (a.toNat * b.toNat) := by
  simp only [UInt16.toNat_mul, wrap, ← Int.natCast_mul]
  omega

end Word

namespace Alu

open Word

variable (lhs rhs : UInt16) (carry : Bool)

theorem toNat_toUInt16 : carry.toUInt16.toNat = carry.toNat := by cases carry <;> rfl

theorem carry_le_one : carry.toNat ≤ 1 := by cases carry <;> decide

theorem toNat_value_addWithCarry :
    (addWithCarry lhs rhs carry).value.toNat = wrap (lhs.toNat + rhs.toNat + carry.toNat) := by
  simp only [addWithCarry, Word.toNat_add, toNat_toUInt16, wrap]
  omega

/-- At most one of the two additions wraps. -/
theorem carry_addWithCarry :
    (addWithCarry lhs rhs carry).carry =
      decide ((65536 : Int) ≤ lhs.toNat + rhs.toNat + carry.toNat) := by
  have hl := lhs.toNat_lt
  have hr := rhs.toNat_lt
  have hc := carry_le_one carry
  rw [Bool.eq_iff_iff]
  simp only [addWithCarry, Bool.or_eq_true, decide_eq_true_eq, UInt16.lt_iff_toNat_lt,
    Word.toNat_add, toNat_toUInt16, wrap]
  omega

theorem overflow_addWithCarry :
    (addWithCarry lhs rhs carry).overflow =
      decide (¬ HoldsSigned (signed lhs.toNat + signed rhs.toNat + carry.toNat)) := by
  have hl := lhs.toNat_lt
  have hr := rhs.toNat_lt
  have hc := carry_le_one carry
  have hv := toNat_value_addWithCarry lhs rhs carry
  simp only [wrap] at hv
  have hover : (addWithCarry lhs rhs carry).overflow =
      ((isNegative lhs ^^ isNegative (addWithCarry lhs rhs carry).value) &&
        (isNegative rhs ^^ isNegative (addWithCarry lhs rhs carry).value)) := by
    rw [← isNegative_xor, ← isNegative_xor, ← isNegative_and]
    rfl
  rw [hover]
  simp only [isNegative_eq_decide, signed]
  by_cases hln : 32768 ≤ lhs.toNat <;> by_cases hrn : 32768 ≤ rhs.toNat <;>
    by_cases hvn : 32768 ≤ (addWithCarry lhs rhs carry).value.toNat <;>
    simp [hln, hrn, hvn, HoldsSigned] <;> omega

theorem toNat_value_subWithBorrow :
    (subWithBorrow lhs rhs carry).value.toNat =
      wrap (lhs.toNat - rhs.toNat - (1 - carry.toNat)) := by
  have hc : ((!carry).toNat : Int) = 1 - carry.toNat := by cases carry <;> rfl
  simp only [subWithBorrow, Word.toNat_sub, toNat_toUInt16, hc, wrap]
  omega

/-- The carry tells that no borrow was needed. -/
theorem carry_subWithBorrow :
    (subWithBorrow lhs rhs carry).carry =
      decide ((0 : Int) ≤ lhs.toNat - rhs.toNat - (1 - carry.toNat)) := by
  have hl := lhs.toNat_lt
  have hr := rhs.toNat_lt
  have hc := carry_le_one carry
  have hn : (!carry).toNat = 1 - carry.toNat := by cases carry <;> rfl
  rw [Bool.eq_iff_iff]
  simp only [subWithBorrow, Bool.not_eq_true', Bool.or_eq_false_iff, decide_eq_false_iff_not,
    decide_eq_true_eq, UInt16.lt_iff_toNat_lt, Word.toNat_sub, toNat_toUInt16, hn, wrap]
  omega

theorem overflow_subWithBorrow :
    (subWithBorrow lhs rhs carry).overflow =
      decide (¬ HoldsSigned (signed lhs.toNat - signed rhs.toNat - (1 - carry.toNat))) := by
  have hl := lhs.toNat_lt
  have hr := rhs.toNat_lt
  have hc := carry_le_one carry
  have hv := toNat_value_subWithBorrow lhs rhs carry
  simp only [wrap] at hv
  have hover : (subWithBorrow lhs rhs carry).overflow =
      ((isNegative lhs ^^ isNegative rhs) &&
        (isNegative lhs ^^ isNegative (subWithBorrow lhs rhs carry).value)) := by
    rw [← isNegative_xor, ← isNegative_xor, ← isNegative_and]
    rfl
  rw [hover]
  simp only [isNegative_eq_decide, signed]
  by_cases hln : 32768 ≤ lhs.toNat <;> by_cases hrn : 32768 ≤ rhs.toNat <;>
    by_cases hvn : 32768 ≤ (subWithBorrow lhs rhs carry).value.toNat <;>
    simp [hln, hrn, hvn, HoldsSigned] <;> omega

theorem toNat_compare : (compare lhs rhs).1.toNat = wrap (lhs.toNat - rhs.toNat) :=
  Word.toNat_sub lhs rhs

theorem carry_compare : (compare lhs rhs).2 = decide (rhs.toNat ≤ lhs.toNat) := by
  rw [Bool.eq_iff_iff]
  simp [compare, UInt16.lt_iff_toNat_lt]

end Alu

end WordMachine
