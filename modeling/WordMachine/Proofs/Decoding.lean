import Mathlib.Tactic.ByContra
import WordMachine.Instruction
import WordMachine.Proofs.Arithmetic

/-! What the bytes of a program decode to: an instruction is there exactly when its opcode byte is
assigned and the program holds all of its bytes. -/
namespace WordMachine

variable {p : Program} {pc : UInt16} {op : Opcode} {i : Instruction}

namespace Word

theorem toNat_ofBytes (lo hi : UInt8) : (ofBytes lo hi).toNat = lo.toNat + 256 * hi.toNat := by
  have hl := lo.toNat_lt
  have hh := hi.toNat_lt
  simp only [ofBytes, UInt16.toNat_or, UInt8.toNat_toUInt16, UInt16.toNat_shiftLeft]
  rw [Nat.or_comm, show (8 : UInt16).toNat % 16 = 8 from rfl, Nat.mod_eq_of_lt,
    ← Nat.shiftLeft_add_eq_or_of_lt hl]
  · rw [Nat.shiftLeft_eq]
    omega
  · rw [Nat.shiftLeft_eq]
    omega

theorem read?_eq_some_iff {bs : Array UInt8} {n : Nat} {w : UInt16} :
    read? bs n = some w ↔
      ∃ lo hi, bs[n]? = some lo ∧ bs[n + 1]? = some hi ∧ ofBytes lo hi = w := by
  unfold read?
  split <;> simp_all

theorem read?_eq_none_iff {bs : Array UInt8} {n : Nat} :
    read? bs n = none ↔ bs.size < n + 2 := by
  unfold read?
  split
  case h_1 lo hi hlo hhi =>
    obtain ⟨h, -⟩ := Array.getElem?_eq_some_iff.1 hhi
    simp only [reduceCtorEq, false_iff]
    omega
  case h_2 hne =>
    simp only [true_iff]
    by_contra hlt
    exact hne _ _ (Array.getElem?_eq_getElem (by omega)) (Array.getElem?_eq_getElem (by omega))

end Word

theorem Opcode.ofCode?_eq_some_iff {b : UInt8} : ofCode? b = some op ↔ op.code = b := by
  constructor
  · exact code_of_ofCode?
  · rintro rfl
    exact ofCode?_code op

theorem Opcode.ofCode?_eq_none_iff {b : UInt8} : ofCode? b = none ↔ ∀ op : Opcode, op.code ≠ b := by
  simp [Option.eq_none_iff_forall_ne_some, ofCode?_eq_some_iff]

namespace Program

theorem byte?_eq_some_lt {b : UInt8} (h : p.byte? pc = some b) : pc.toNat < p.size :=
  (Array.getElem?_eq_some_iff.1 h).1

theorem exists_byte? (h : pc.toNat < p.size) : ∃ b, p.byte? pc = some b :=
  ⟨_, Array.getElem?_eq_getElem h⟩

end Program

namespace AddressMode

/-- An operand is missing exactly when the program ends before its last byte. -/
theorem operand?_eq_none_iff (mode : AddressMode) (h : pc.toNat < p.size) :
    mode.operand? p pc = none ↔ p.size < pc.toNat + mode.size := by
  simp only [Program.size] at *
  cases mode with
  | implied =>
    simp only [operand?, size, operandBytes, reduceCtorEq, false_iff]
    omega
  | immediate =>
    simp only [operand?, size, operandBytes, Option.map_eq_none_iff, Word.read?_eq_none_iff]
  | memory =>
    simp only [operand?, size, operandBytes, Option.map_eq_none_iff, Word.read?_eq_none_iff]
  | relative =>
    simp only [operand?, size, operandBytes, Option.map_eq_none_iff, Array.getElem?_eq_none_iff]
    omega

end AddressMode

namespace Program

theorem decode_eq_ok_iff :
    p.decode pc = .ok i ↔
      i.pc = pc ∧ p.byte? pc = some i.opcode.code ∧
        i.opcode.mode.operand? p pc = some i.operand := by
  rcases i with ⟨op, at', operand⟩
  cases hb : p.byte? pc with
  | none => simp [decode, hb]
  | some code =>
    cases hop : Opcode.ofCode? code with
    | none =>
      have hne := Opcode.ofCode?_eq_none_iff.1 hop op
      simp [decode, hb, hop, hne.symm]
    | some op' =>
      obtain rfl := Opcode.code_of_ofCode? hop
      cases ho : op'.mode.operand? p pc with
      | none =>
        simp only [decode, hb, hop, ho, reduceCtorEq, Option.some.injEq, false_iff]
        rintro ⟨-, hc, hn⟩
        obtain rfl := Opcode.code_injective hc
        simp [ho] at hn
      | some operand' =>
        simp only [decode, hb, hop, ho, Except.ok.injEq, Instruction.mk.injEq, Option.some.injEq]
        constructor
        · rintro ⟨rfl, rfl, rfl⟩
          exact ⟨rfl, rfl, ho⟩
        · rintro ⟨rfl, hc, hs⟩
          obtain rfl := Opcode.code_injective hc
          exact ⟨rfl, rfl, by simpa [ho] using hs⟩

/-- The two ways in which the bytes at an address of the program are no instruction. -/
theorem decode_eq_error_iff (h : pc.toNat < p.size) {cause : Fault} :
    p.decode pc = .error cause ↔
      (∃ code, p.byte? pc = some code ∧ (∀ op : Opcode, op.code ≠ code) ∧
        cause = .invalidOpcode code pc) ∨
      (∃ op : Opcode, p.byte? pc = some op.code ∧ p.size < pc.toNat + op.size ∧
        cause = .truncatedInstruction pc) := by
  obtain ⟨code, hb⟩ := exists_byte? h
  cases hop : Opcode.ofCode? code with
  | none =>
    have hne := Opcode.ofCode?_eq_none_iff.1 hop
    simp only [decode, hb, hop, Except.error.injEq, Option.some.injEq]
    constructor
    · rintro rfl
      exact .inl ⟨code, rfl, hne, rfl⟩
    · rintro (⟨_, rfl, -, rfl⟩ | ⟨op, hc, -⟩)
      · rfl
      · exact absurd hc.symm (hne op)
  | some op =>
    obtain rfl := Opcode.code_of_ofCode? hop
    have hnone := AddressMode.operand?_eq_none_iff op.mode h
    cases ho : op.mode.operand? p pc with
    | none =>
      simp only [decode, hb, hop, ho, Except.error.injEq, Option.some.injEq]
      constructor
      · rintro rfl
        exact .inr ⟨op, rfl, hnone.1 ho, rfl⟩
      · rintro (⟨_, rfl, hne, -⟩ | ⟨_, -, -, rfl⟩)
        · exact absurd rfl (hne op)
        · rfl
    | some operand =>
      simp only [decode, hb, hop, ho, reduceCtorEq, Option.some.injEq, false_iff]
      rintro (⟨_, rfl, hne, -⟩ | ⟨_, hc, hlt, -⟩)
      · exact absurd rfl (hne op)
      · obtain rfl := Opcode.code_injective hc
        simp [hnone.2 hlt] at ho

theorem decode_pc (h : p.decode pc = .ok i) : i.pc = pc := (decode_eq_ok_iff.1 h).1

theorem byte?_of_decode (h : p.decode pc = .ok i) : p.byte? pc = some i.opcode.code :=
  (decode_eq_ok_iff.1 h).2.1

/-- The program holds every byte of an instruction that it decodes to. -/
theorem add_size_le_of_decode (h : p.decode pc = .ok i) : pc.toNat + i.size ≤ p.size := by
  obtain ⟨-, hcode, hoperand⟩ := decode_eq_ok_iff.1 h
  by_contra hlt
  have hnone := (AddressMode.operand?_eq_none_iff i.opcode.mode (byte?_eq_some_lt hcode)).2
    (Nat.lt_of_not_le hlt)
  simp [hnone] at hoperand

/-- The operand word of a decoded instruction is spelled by the two bytes after the opcode. -/
theorem decode_word (h : p.decode pc = .ok i)
    (hm : i.opcode.mode = .immediate ∨ i.opcode.mode = .memory) :
    ∃ lo hi, p.bytes[pc.toNat + 1]? = some lo ∧ p.bytes[pc.toNat + 2]? = some hi ∧
      i.operand = .word (Word.ofBytes lo hi) := by
  obtain ⟨-, -, ho⟩ := decode_eq_ok_iff.1 h
  have hr : (Word.read? p.bytes (pc.toNat + 1)).map Operand.word = some i.operand := by
    rcases hm with hm | hm <;> simpa [AddressMode.operand?, hm] using ho
  obtain ⟨w, hw, hop⟩ := Option.map_eq_some_iff.1 hr
  obtain ⟨lo, hi, hlo, hhi, rfl⟩ := Word.read?_eq_some_iff.1 hw
  exact ⟨lo, hi, hlo, hhi, hop.symm⟩

/-- The offset of a decoded branch is the byte after the opcode, read with its sign. -/
theorem decode_branch (h : p.decode pc = .ok i) (hm : i.opcode.mode = .relative) :
    ∃ b, p.bytes[pc.toNat + 1]? = some b ∧ i.operand = .offset b.toInt8 := by
  obtain ⟨-, -, ho⟩ := decode_eq_ok_iff.1 h
  simp only [AddressMode.operand?, hm, Option.map_eq_some_iff] at ho
  obtain ⟨b, hb, hop⟩ := ho
  exact ⟨b, hb, hop.symm⟩

end Program

namespace Instruction

/-- The signed distance that a branch goes. -/
def offset (i : Instruction) : Int :=
  match i.operand with
  | .offset value => value.toInt
  | .none | .word _ => 0

theorem toNat_nextPc : i.nextPc.toNat = Word.wrap (i.pc.toNat + i.opcode.size) := by
  have hsize : i.size ≤ 3 := i.opcode.mode.size_le
  have hofNat : (UInt16.ofNat i.size).toNat = i.size :=
    UInt16.toNat_ofNat_of_lt (Nat.lt_of_le_of_lt hsize (by decide))
  rw [nextPc, Word.toNat_add, hofNat]
  rfl

theorem toNat_toUInt16_int16 (x : Int16) : (x.toUInt16.toNat : Int) = x.toInt % 65536 := by
  have hcond := BitVec.toInt_eq_toNat_cond x.toBitVec
  have hlt := x.toBitVec.isLt
  change (x.toBitVec.toNat : Int) = x.toBitVec.toInt % 65536
  split at hcond <;> omega

/-- A taken branch leads to the end of the branch plus its offset. -/
theorem toNat_branchTarget :
    i.branchTarget.toNat = Word.wrap (i.pc.toNat + i.opcode.size + i.offset) := by
  cases hop : i.operand with
  | offset value =>
    rw [branchTarget, offset, hop]
    simp only
    rw [Word.toNat_add, toNat_nextPc, toNat_toUInt16_int16, Int8.toInt_toInt16]
    simp only [Word.wrap]
    omega
  | none => simp [branchTarget, offset, hop, toNat_nextPc]
  | word => simp [branchTarget, offset, hop, toNat_nextPc]

end Instruction

end WordMachine
