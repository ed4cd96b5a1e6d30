import WordMachine.Proofs.Encoding

/-! Instructions written as statements: the operand becomes a number, and encoding that statement at
the address of the instruction gives the bytes of the instruction back. -/
namespace WordMachine

open Source

theorem Word.ofBytes_injective {lo hi lo' hi' : UInt8} (h : ofBytes lo hi = ofBytes lo' hi') :
    lo = lo' ∧ hi = hi' := by
  have hnat := congrArg UInt16.toNat h
  rw [toNat_ofBytes, toNat_ofBytes] at hnat
  have := lo.toNat_lt
  have := lo'.toNat_lt
  exact ⟨UInt8.toNat_inj.1 (by omega), UInt8.toNat_inj.1 (by omega)⟩

/-- The statement that an instruction is written as. -/
def Instruction.statement (i : Instruction) : Statement :=
  { opcode := i.opcode, argument? := i.value?.map .number }

namespace Program

variable {p : Program} {pc : UInt16} {i : Instruction} {symbols : Symbols} {bytes : List UInt8}

theorem value?_eq_none_iff (h : p.decode pc = .ok i) :
    i.value? = none ↔ i.opcode.mode = .implied := by
  cases hm : i.opcode.mode with
  | implied =>
    have ho := (decode_eq_ok_iff.1 h).2.2
    rw [hm] at ho
    simp [Instruction.value?, ← Option.some.inj ho]
  | immediate => simp [value?_of_word h (.inl hm)]
  | memory => simp [value?_of_word h (.inr hm)]
  | relative => simp [value?_of_branch h hm]

theorem proper_statement (h : p.decode pc = .ok i) : i.statement.Proper := by
  rw [Statement.Proper, Instruction.statement, Option.map_eq_none_iff]
  exact value?_eq_none_iff h

/-- The value of a branch is its target, and the offset to that target is the one it has. -/
theorem holdsAt_of_relativeOffset {offset : Int8} (h : p.decode pc = .ok i)
    (hm : i.opcode.mode = .relative)
    (hoffset : offset.toInt = i.branchTarget.toNat - (pc.toNat + i.opcode.size)) :
    p.HoldsAt (pc.toNat + 1) [offset.toUInt8] := by
  obtain ⟨b, hb, hop⟩ := decode_branch h hm
  have htarget := i.toNat_branchTarget
  simp only [Instruction.offset, hop, decode_pc h, Word.wrap] at htarget
  have heq : offset = b.toInt8 := by
    have := offset.le_toInt
    have := offset.toInt_lt
    have := b.toInt8.le_toInt
    have := b.toInt8.toInt_lt
    exact Int8.toInt_inj.1 (by omega)
  rw [heq, UInt8.toUInt8_toInt8]
  exact holdsAt_cons.2 ⟨hb, holdsAt_nil⟩

/-- Encoding an instruction at its address gives the bytes that it was decoded from. -/
theorem holdsAt_of_encode (h : p.decode pc = .ok i)
    (hencode : i.statement.encode symbols pc = .ok bytes) : p.HoldsAt pc.toNat bytes := by
  have hcode : p.bytes[pc.toNat]? = some i.opcode.code := byte?_of_decode h
  cases hvalue : i.value? with
  | none =>
    rw [encode_of_argument_none (by simp [Instruction.statement, hvalue])] at hencode
    cases hencode
    exact holdsAt_cons.2 ⟨hcode, holdsAt_nil⟩
  | some value =>
    have harg : i.statement.argument? = some (.number value) := by
      simp [Instruction.statement, hvalue]
    obtain ⟨_, rest, hresolve, hrest, rfl⟩ := (encode_eq_ok_iff harg).1 hencode
    cases hresolve
    refine holdsAt_cons.2 ⟨hcode, ?_⟩
    rcases operandBytes_eq_ok hrest with ⟨-, rfl⟩ | ⟨hm, rfl⟩ | ⟨hm, offset, hoffset, rfl⟩
    · exact holdsAt_nil
    · obtain ⟨lo, hi, hlo, hhi, hop⟩ := decode_word h hm
      obtain rfl : Word.ofBytes lo hi = value := by simpa [Instruction.value?, hop] using hvalue
      obtain ⟨hlow, hhigh⟩ := Word.ofBytes_injective (Word.ofBytes_low_high (Word.ofBytes lo hi))
      rw [Word.bytes, hlow, hhigh]
      exact holdsAt_cons.2 ⟨hlo, holdsAt_cons.2 ⟨hhi, holdsAt_nil⟩⟩
    · rw [value?_of_branch h hm, Option.some.injEq] at hvalue
      rw [← hvalue] at hoffset
      exact holdsAt_of_relativeOffset h hm hoffset

end Program

end WordMachine
