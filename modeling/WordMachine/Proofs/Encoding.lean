import WordMachine.Proofs.Decoding
import WordMachine.Proofs.FirstFault
import WordMachine.Source.Encoding

/-! The bytes of a statement: when it has none, and that they decode to the statement again
wherever a program holds them. -/
namespace WordMachine

/-- The bytes of the program from offset `n` on begin with these. -/
def Program.HoldsAt (p : Program) (n : Nat) (bytes : List UInt8) : Prop :=
  ∀ k < bytes.length, p.bytes[n + k]? = bytes[k]?

/-- The word that an operand stands for in source text. -/
def Instruction.value? (i : Instruction) : Option UInt16 :=
  match i.operand with
  | .none => none
  | .word value => some value
  | .offset _ => some i.branchTarget

namespace Program

variable {p : Program} {pc : UInt16} {i : Instruction} {n : Nat} {b : UInt8} {bytes : List UInt8}

theorem holdsAt_nil : p.HoldsAt n [] := fun _ hk => absurd hk (Nat.not_lt_zero _)

theorem holdsAt_cons :
    p.HoldsAt n (b :: bytes) ↔ p.bytes[n]? = some b ∧ p.HoldsAt (n + 1) bytes := by
  have hshift : ∀ k, n + (k + 1) = n + 1 + k := by omega
  constructor
  · intro h
    refine ⟨h 0 (by simp), fun k hk => ?_⟩
    rw [← hshift]
    exact h (k + 1) (by simpa using hk)
  · rintro ⟨hfirst, hrest⟩ k hk
    cases k with
    | zero => exact hfirst
    | succ k =>
      rw [hshift]
      exact hrest k (by simpa using hk)

theorem holdsAt_append (before bytes after : List UInt8) :
    (Program.ofList (before ++ bytes ++ after)).HoldsAt before.length bytes := by
  intro k hk
  have hlt : k < (bytes ++ after).length := by
    rw [List.length_append]
    omega
  simp [Program.ofList, List.getElem?_append_right, List.getElem?_append_left hk]

theorem value?_of_word (h : p.decode pc = .ok i)
    (hm : i.opcode.mode = .immediate ∨ i.opcode.mode = .memory) : i.value? = some i.word := by
  obtain ⟨lo, hi, -, -, hop⟩ := decode_word h hm
  simp [Instruction.value?, Instruction.word, hop]

theorem value?_of_branch (h : p.decode pc = .ok i) (hm : i.opcode.mode = .relative) :
    i.value? = some i.branchTarget := by
  obtain ⟨b, -, hop⟩ := decode_branch h hm
  simp [Instruction.value?, hop]

end Program

namespace Source

variable {s : Statement} {argument : Argument} {symbols : Symbols} {address value : UInt16}
  {op : Opcode} {bytes rest : List UInt8} {cause : Cause} {size : Nat} {p : Program}

/-- A statement as parsing leaves it. -/
def Statement.Proper (s : Statement) : Prop := s.argument? = none ↔ s.opcode.mode = .implied

theorem Statement.proper_of_parse {words : List (List Char)} (h : Statement.parse words = .ok s) :
    s.Proper := by
  unfold Statement.parse at h
  split at h
  · cases h
  · split at h
    · cases h
    · split at h
      case h_1 hm =>
        cases h
        exact ⟨fun _ => hm, fun _ => rfl⟩
      case h_4 word hm =>
        obtain ⟨argument, -, rfl⟩ := map_eq_ok_iff.1 h
        simpa [Statement.Proper] using hm
      all_goals cases h

theorem Line.proper_of_parse {text : List Char} {line : Line} (h : Line.parse text = .ok line)
    (hs : line.statement? = some s) : s.Proper := by
  have hbody : ∀ label? text, Line.parseBody label? text = .ok line → s.Proper := by
    intro label? text hb
    unfold Line.parseBody at hb
    split at hb
    · cases label? <;> cases hb <;> cases hs
    · obtain ⟨s', hparse, rfl⟩ := map_eq_ok_iff.1 hb
      cases hs
      exact Statement.proper_of_parse hparse
  unfold Line.parse at h
  simp only at h
  split at h
  · exact hbody _ _ h
  · split at h
    · exact hbody _ _ h
    · cases h

theorem relativeOffset_eq_ok_iff {offset : Int8} :
    relativeOffset address size value = .ok offset ↔
      offset.toInt = value.toNat - (address.toNat + size) := by
  simp only [relativeOffset]
  by_cases h : -128 ≤ (value.toNat : Int) - (address.toNat + size) ∧
      (value.toNat : Int) - (address.toNat + size) ≤ 127
  · rw [if_pos h, Except.ok.injEq, ← Int8.toInt_inj, Int8.toInt_ofInt_of_le (by omega) (by omega)]
    exact eq_comm
  · rw [if_neg h]
    simp only [reduceCtorEq, false_iff]
    intro heq
    exact h (heq ▸ ⟨offset.le_toInt, Int.le_of_lt_add_one offset.toInt_lt⟩)

theorem relativeOffset_eq_error_iff {offset : Int} :
    relativeOffset address size value = .error offset ↔
      offset = value.toNat - (address.toNat + size) ∧ ¬ (-128 ≤ offset ∧ offset ≤ 127) := by
  simp only [relativeOffset]
  by_cases h : -128 ≤ (value.toNat : Int) - (address.toNat + size) ∧
      (value.toNat : Int) - (address.toNat + size) ≤ 127
  · rw [if_pos h]
    simp only [reduceCtorEq, false_iff]
    rintro ⟨rfl, hfar⟩
    exact hfar h
  · rw [if_neg h, Except.error.injEq]
    constructor
    · rintro rfl
      exact ⟨rfl, h⟩
    · rintro ⟨rfl, -⟩
      rfl

/-- Only a branch has operands that cannot be encoded. -/
theorem operandBytes_eq_error_iff :
    operandBytes op address value = .error cause ↔
      op.mode = .relative ∧ ∃ offset : Int, offset = value.toNat - (address.toNat + 2) ∧
        ¬ (-128 ≤ offset ∧ offset ≤ 127) ∧ cause = .offsetOutOfRange value offset := by
  cases hm : op.mode with
  | relative =>
    have hsize : op.size = 2 := by rw [Opcode.size, hm]; rfl
    simp only [operandBytes, hm, hsize, true_and]
    cases hr : relativeOffset address 2 value with
    | ok offset =>
      simp only [reduceCtorEq, false_iff, not_exists]
      rintro d ⟨hd, hfar, -⟩
      have herr := relativeOffset_eq_error_iff.2 ⟨hd, hfar⟩
      rw [hr] at herr
      cases herr
    | error offset =>
      obtain ⟨hoffset, hfar⟩ := relativeOffset_eq_error_iff.1 hr
      simp only [Except.error.injEq]
      constructor
      · rintro rfl
        exact ⟨offset, hoffset, hfar, rfl⟩
      · rintro ⟨d, hd, -, rfl⟩
        rw [hoffset, hd]
        rfl
  | implied => simp [operandBytes, hm]
  | immediate => simp [operandBytes, hm]
  | memory => simp [operandBytes, hm]

theorem encode_of_argument_none (h : s.argument? = none) :
    s.encode symbols address = .ok [s.opcode.code] := by
  simp [Statement.encode, h]

theorem encode_eq_ok_iff (h : s.argument? = some argument) :
    s.encode symbols address = .ok bytes ↔
      ∃ value rest, argument.resolve symbols = .ok value ∧
        operandBytes s.opcode address value = .ok rest ∧ bytes = s.opcode.code :: rest := by
  simp only [Statement.encode, h, bind_eq_ok_iff, pure, Except.pure, Except.ok.injEq]
  constructor
  · rintro ⟨value, hvalue, rest, hrest, rfl⟩
    exact ⟨value, rest, hvalue, hrest, rfl⟩
  · rintro ⟨value, rest, hvalue, hrest, rfl⟩
    exact ⟨value, hvalue, rest, hrest, rfl⟩

/-- A statement has no encoding when its label is not known or its branch goes too far. -/
theorem encode_eq_error_iff :
    s.encode symbols address = .error cause ↔
      ∃ argument, s.argument? = some argument ∧
        (argument.resolve symbols = .error cause ∨
          ∃ value, argument.resolve symbols = .ok value ∧
            operandBytes s.opcode address value = .error cause) := by
  cases h : s.argument? with
  | none => simp [encode_of_argument_none h]
  | some argument =>
    simp [Statement.encode, h, bind_eq_error_iff, pure, Except.pure]

/-- The bytes that a value takes: none, its two, or those of its distance. -/
theorem operandBytes_eq_ok (h : operandBytes op address value = .ok rest) :
    (op.mode = .implied ∧ rest = []) ∨
      ((op.mode = .immediate ∨ op.mode = .memory) ∧ rest = Word.bytes value) ∨
      (op.mode = .relative ∧ ∃ offset : Int8,
        offset.toInt = value.toNat - (address.toNat + op.size) ∧ rest = [offset.toUInt8]) := by
  cases hm : op.mode with
  | implied => simpa [operandBytes, hm, eq_comm] using h
  | immediate => simpa [operandBytes, hm, eq_comm] using h
  | memory => simpa [operandBytes, hm, eq_comm] using h
  | relative =>
    cases hr : relativeOffset address op.size value with
    | error offset => simp [operandBytes, hm, hr] at h
    | ok offset =>
      simp only [operandBytes, hm, hr, Except.ok.injEq] at h
      exact .inr (.inr ⟨rfl, offset, relativeOffset_eq_ok_iff.1 hr, h.symm⟩)

theorem length_operandBytes (h : operandBytes op address value = .ok rest) :
    rest.length = op.mode.operandBytes := by
  rcases operandBytes_eq_ok h with ⟨hm, rfl⟩ | ⟨hm | hm, rfl⟩ | ⟨hm, offset, -, rfl⟩
  all_goals
    rw [hm]
    rfl

theorem read?_of_holdsAt {n : Nat} (h : p.HoldsAt n (Word.bytes value)) :
    Word.read? p.bytes n = some value :=
  Word.read?_eq_some_iff.2 ⟨_, _, h 0 (by simp [Word.bytes]), h 1 (by simp [Word.bytes]),
    Word.ofBytes_low_high value⟩

/-- The operand behind an opcode byte stands for the value that was encoded there. -/
theorem operand?_of_operandBytes (hmode : op.mode ≠ .implied)
    (h : operandBytes op address value = .ok rest) (hat : p.HoldsAt (address.toNat + 1) rest) :
    ∃ operand, op.mode.operand? p address = some operand ∧
      Instruction.value? { opcode := op, pc := address, operand } = some value := by
  rcases operandBytes_eq_ok h with ⟨hm, -⟩ | ⟨hm, rfl⟩ | ⟨hm, offset, hoffset, rfl⟩
  · exact absurd hm hmode
  · have hread := read?_of_holdsAt hat
    exact ⟨.word value, by rcases hm with hm | hm <;> simp [AddressMode.operand?, hm, hread], rfl⟩
  · have hbyte : p.bytes[address.toNat + 1]? = some offset.toUInt8 := hat 0 (by simp)
    refine ⟨.offset offset, by simp [AddressMode.operand?, hm, hbyte], ?_⟩
    have htarget := Instruction.toNat_branchTarget
      (i := { opcode := op, pc := address, operand := .offset offset })
    have hsum : (address.toNat : Int) + op.size + offset.toInt = value.toNat := by omega
    rw [Instruction.offset, hsum, Word.wrap_toNat, UInt16.toNat_inj] at htarget
    exact congrArg some htarget

/-- The value of the argument of a statement. -/
def Statement.value? (s : Statement) (symbols : Symbols) : Option UInt16 :=
  s.argument?.bind fun argument => (argument.resolve symbols).toOption

theorem length_encode (hs : s.Proper) (h : s.encode symbols address = .ok bytes) :
    bytes.length = s.size := by
  cases harg : s.argument? with
  | none =>
    rw [encode_of_argument_none harg] at h
    cases h
    simp [Statement.size, Opcode.size, hs.1 harg, AddressMode.size, AddressMode.operandBytes]
  | some argument =>
    obtain ⟨value, rest, -, hrest, rfl⟩ := (encode_eq_ok_iff harg).1 h
    rw [List.length_cons, length_operandBytes hrest, Nat.add_comm]
    rfl

/-- The bytes of a statement decode to its opcode and to the value of its argument. -/
theorem decode_of_holdsAt (hs : s.Proper) (h : s.encode symbols address = .ok bytes)
    (hat : p.HoldsAt address.toNat bytes) :
    ∃ i, p.decode address = .ok i ∧ i.opcode = s.opcode ∧ i.value? = s.value? symbols := by
  cases harg : s.argument? with
  | none =>
    rw [encode_of_argument_none harg] at h
    cases h
    refine ⟨⟨s.opcode, address, .none⟩, Program.decode_eq_ok_iff.2 ⟨rfl, hat 0 (by simp), ?_⟩,
      rfl, by simp [Instruction.value?, Statement.value?, harg]⟩
    simp [hs.1 harg, AddressMode.operand?]
  | some argument =>
    obtain ⟨value, rest, hvalue, hrest, rfl⟩ := (encode_eq_ok_iff harg).1 h
    have hmode : s.opcode.mode ≠ .implied := fun hm => by simp [hs.2 hm] at harg
    obtain ⟨hcode, htail⟩ := Program.holdsAt_cons.1 hat
    obtain ⟨operand, hop, hi⟩ := operand?_of_operandBytes hmode hrest htail
    refine ⟨⟨s.opcode, address, operand⟩, Program.decode_eq_ok_iff.2 ⟨rfl, hcode, hop⟩, rfl, ?_⟩
    simp [hi, Statement.value?, harg, hvalue, Except.toOption]

end Source

end WordMachine
