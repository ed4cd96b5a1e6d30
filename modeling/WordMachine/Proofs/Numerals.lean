import Mathlib.Data.List.Forall2
import Mathlib.Data.Nat.Digits.Defs
import WordMachine.Source.Numeral

/-! Numbers in digits: what a run of digits writes, and which literals stand for a word. -/
namespace WordMachine

namespace Digits

variable {radix acc n d : Nat} {c : Char} {digits : List Char}

/-- What a digit counts. Letters go on after nine and may be in either case. -/
inductive IsDigit : Char → Nat → Prop
  | decimal {c : Char} (h : '0' ≤ c ∧ c ≤ '9') : IsDigit c (c.toNat - '0'.toNat)
  | lower {c : Char} (h : 'a' ≤ c ∧ c ≤ 'f') : IsDigit c (10 + (c.toNat - 'a'.toNat))
  | upper {c : Char} (h : 'A' ≤ c ∧ c ≤ 'F') : IsDigit c (10 + (c.toNat - 'A'.toNat))

/-- There are digits, all of them digits of `radix`, and their value by position is `n`. -/
def Writes (radix : Nat) (digits : List Char) (n : Nat) : Prop :=
  digits ≠ [] ∧ ∃ ds, List.Forall₂ IsDigit digits ds ∧ (∀ d ∈ ds, d < radix) ∧
    Nat.ofDigits radix ds.reverse = n

/-- The three ranges of digits, by code point. -/
theorem isDigit_iff :
    IsDigit c d ↔ (48 ≤ c.toNat ∧ c.toNat ≤ 57 ∧ c.toNat = 48 + d) ∨
      (97 ≤ c.toNat ∧ c.toNat ≤ 102 ∧ c.toNat = 87 + d) ∨
      (65 ≤ c.toNat ∧ c.toNat ≤ 70 ∧ c.toNat = 55 + d) := by
  constructor
  · rintro (⟨hfirst, hlast⟩ | ⟨hfirst, hlast⟩ | ⟨hfirst, hlast⟩)
    · have hle : 48 ≤ c.toNat := hfirst
      exact .inl ⟨hle, hlast, by simp; omega⟩
    · have hle : 97 ≤ c.toNat := hfirst
      exact .inr (.inl ⟨hle, hlast, by simp; omega⟩)
    · have hle : 65 ≤ c.toNat := hfirst
      exact .inr (.inr ⟨hle, hlast, by simp; omega⟩)
  · rintro (⟨hfirst, hlast, hd⟩ | ⟨hfirst, hlast, hd⟩ | ⟨hfirst, hlast, hd⟩)
    · obtain rfl : d = c.toNat - '0'.toNat := by simp; omega
      exact .decimal ⟨hfirst, hlast⟩
    · obtain rfl : d = 10 + (c.toNat - 'a'.toNat) := by simp; omega
      exact .lower ⟨hfirst, hlast⟩
    · obtain rfl : d = 10 + (c.toNat - 'A'.toNat) := by simp; omega
      exact .upper ⟨hfirst, hlast⟩

theorem digit?_eq_some_iff : digit? radix c = some d ↔ IsDigit c d ∧ d < radix := by
  have hrange : ∀ a b : Char, a ≤ c ∧ c ≤ b ↔ a.toNat ≤ c.toNat ∧ c.toNat ≤ b.toNat :=
    fun _ _ => Iff.rfl
  rw [digit?, Option.filter_eq_some_iff, decide_eq_true_eq, isDigit_iff]
  refine and_congr_left fun _ => ?_
  simp only [hrange]
  split_ifs <;> simp at * <;> omega

theorem ofDigits_reverse (radix : Nat) (ds : List Nat) :
    Nat.ofDigits radix ds.reverse = ds.foldl (fun value d => radix * value + d) 0 := by
  simp [Nat.ofDigits_eq_foldr, Nat.add_comm]

/-- By induction on the digits, for any value of those already read. -/
theorem foldlM_digit?_eq_some_iff :
    digits.foldlM (fun value c => (digit? radix c).map (radix * value + ·)) acc = some n ↔
      ∃ ds, List.Forall₂ IsDigit digits ds ∧ (∀ d ∈ ds, d < radix) ∧
        ds.foldl (fun value d => radix * value + d) acc = n := by
  induction digits generalizing acc with
  | nil => simp [List.forall₂_nil_left_iff]
  | cons c digits ih =>
    simp only [List.foldlM_cons, Option.bind_eq_bind, Option.bind_eq_some_iff,
      Option.map_eq_some_iff, digit?_eq_some_iff, ih, List.forall₂_cons_left_iff]
    constructor
    · rintro ⟨_, ⟨d, ⟨hc, hlt⟩, rfl⟩, ds, hdigits, hds, rfl⟩
      exact ⟨d :: ds, ⟨d, ds, hc, hdigits, rfl⟩, List.forall_mem_cons.2 ⟨hlt, hds⟩, rfl⟩
    · rintro ⟨_, ⟨d, ds, hc, hdigits, rfl⟩, hds, rfl⟩
      rw [List.forall_mem_cons] at hds
      exact ⟨_, ⟨d, ⟨hc, hds.1⟩, rfl⟩, ds, hdigits, hds.2, rfl⟩

theorem value?_eq_some_iff : value? radix digits = some n ↔ Writes radix digits n := by
  cases digits with
  | nil => simp [value?, Writes]
  | cons c digits =>
    rw [value?, List.isEmpty_cons, if_neg Bool.false_ne_true, foldlM_digit?_eq_some_iff]
    simp [Writes, ofDigits_reverse]

theorem Writes.isDigit (h : Writes radix digits n) (hc : c ∈ digits) :
    ∃ d, IsDigit c d ∧ d < radix := by
  obtain ⟨-, ds, hdigits, hds, -⟩ := h
  induction hdigits with
  | nil => cases hc
  | cons hd _ ih =>
    rcases List.mem_cons.1 hc with rfl | hc
    · exact ⟨_, hd, hds _ List.mem_cons_self⟩
    · exact ih hc fun d hd => hds d (List.mem_cons_of_mem _ hd)

end Digits

namespace Source.Numeral

variable {text : List Char} {n : Nat}

/-- A literal: digits, with a mark in front when they are not decimal. -/
inductive IsLiteral : List Char → Nat → Prop
  | decimal {digits : List Char} {n : Nat} (h : Digits.Writes 10 digits n) : IsLiteral digits n
  | hexadecimal {mark digits : List Char} {n : Nat}
      (hmark : mark ∈ [['$'], ['0', 'x'], ['0', 'X']]) (h : Digits.Writes 16 digits n) :
      IsLiteral (mark ++ digits) n
  | binary {mark digits : List Char} {n : Nat}
      (hmark : mark ∈ [['%'], ['0', 'b'], ['0', 'B']]) (h : Digits.Writes 2 digits n) :
      IsLiteral (mark ++ digits) n

/-- No decimal digit stands in a mark, except the zero that some begin with. -/
theorem split_of_decimal (h : Digits.Writes 10 text n) : split text = (10, text) := by
  have hmark : ∀ c ∈ ['$', 'x', 'X', '%', 'b', 'B'], c ∉ text := by
    intro c hc htext
    obtain ⟨d, hd, hlt⟩ := h.isDigit htext
    rw [Digits.isDigit_iff] at hd
    simp only [List.mem_cons, List.not_mem_nil, or_false] at hc
    rcases hc with rfl | rfl | rfl | rfl | rfl | rfl <;> simp at hd <;> omega
  unfold split
  split <;> simp_all

theorem isLiteral_iff : IsLiteral text n ↔ Digits.Writes (split text).1 (split text).2 n := by
  constructor
  · rintro (h | ⟨hmark, h⟩ | ⟨hmark, h⟩)
    · rwa [split_of_decimal h]
    · simp only [List.mem_cons, List.not_mem_nil, or_false] at hmark
      rcases hmark with rfl | rfl | rfl <;> exact h
    · simp only [List.mem_cons, List.not_mem_nil, or_false] at hmark
      rcases hmark with rfl | rfl | rfl <;> exact h
  · intro h
    have hhex : ∀ mark ∈ [['$'], ['0', 'x'], ['0', 'X']], ∀ digits,
        Digits.Writes 16 digits n → IsLiteral (mark ++ digits) n :=
      fun _ hmark _ hdigits => .hexadecimal hmark hdigits
    have hbinary : ∀ mark ∈ [['%'], ['0', 'b'], ['0', 'B']], ∀ digits,
        Digits.Writes 2 digits n → IsLiteral (mark ++ digits) n :=
      fun _ hmark _ hdigits => .binary hmark hdigits
    simp only [List.forall_mem_cons, List.not_mem_nil] at hhex hbinary
    unfold split at h
    split at h
    · exact hhex.1 _ h
    · exact hhex.2.1 _ h
    · exact hhex.2.2.1 _ h
    · exact hbinary.1 _ h
    · exact hbinary.2.1 _ h
    · exact hbinary.2.2.1 _ h
    · exact .decimal h

theorem parse?_eq_some_iff {value : UInt16} :
    parse? text = some value ↔ IsLiteral text value.toNat := by
  rw [isLiteral_iff, ← Digits.value?_eq_some_iff]
  simp only [parse?, Option.map_eq_some_iff, Option.filter_eq_some_iff, decide_eq_true_eq]
  constructor
  · rintro ⟨n, ⟨hn, hlt⟩, rfl⟩
    rw [hn, UInt16.toNat_ofNat_of_lt' hlt]
  · intro h
    exact ⟨_, ⟨h, value.toNat_lt⟩, UInt16.ofNat_toNat⟩

/-- The literals that are read are those of the numbers that a word holds, with any number of zeros
in front. Any other text is refused. -/
theorem parse_iff_isLiteral (text : List Char) :
    (∀ value, parse? text = some value ↔ IsLiteral text value.toNat) ∧
      (parse? text = none ↔ ∀ n, IsLiteral text n → 65535 < n) := by
  refine ⟨fun value => parse?_eq_some_iff, ?_⟩
  rw [Option.eq_none_iff_forall_ne_some]
  constructor
  · intro hnone n hn
    by_contra hle
    have hlt : n < UInt16.size := Nat.lt_succ_of_le (Nat.le_of_not_lt hle)
    have hword : (UInt16.ofNat n).toNat = n := UInt16.toNat_ofNat_of_lt' hlt
    exact hnone (.ofNat n) (parse?_eq_some_iff.2 (hword.symm ▸ hn))
  · intro hlarge value hvalue
    have hlt := hlarge _ (parse?_eq_some_iff.1 hvalue)
    have hword := value.toNat_lt
    omega

/-- A mark is only looked for at the start, and no sign may follow it. -/
example : parse? "$0b1".toList = some 177 ∧ parse? "0b".toList = none ∧
    parse? "0x+1".toList = none := by decide

end Source.Numeral

end WordMachine
