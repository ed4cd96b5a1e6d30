import WordMachine.Proofs.Encoding

/-! Statements written as bytes and read back: which statements have an encoding at an address, and
that decoding there finds the statement again whatever stands around its bytes. -/
namespace WordMachine

open Source

variable {s : Statement} {symbols : Symbols} {address value : UInt16} {cause : Cause}
  {argument : Argument} {bytes before after : List UInt8} {i : Instruction}

namespace Source

/-- How far `target` is from the end of a branch at `address`. No address wraps in this count. -/
def branchDistance (address target : UInt16) : Int := target.toNat - (address.toNat + 2)

namespace Statement

/-- What a statement needs to have an encoding at `address`. -/
structure Encodable (s : Statement) (symbols : Symbols) (address : UInt16) : Prop where
  resolves : ∀ argument, s.argument? = some argument →
    ∃ value, argument.resolve symbols = .ok value
  inReach : ∀ value, s.opcode.mode = .relative → s.value? symbols = some value →
    -128 ≤ branchDistance address value ∧ branchDistance address value ≤ 127

/-- The instruction at `address` that says what the statement says. -/
def Means (s : Statement) (symbols : Symbols) (address : UInt16) (i : Instruction) : Prop :=
  i.opcode = s.opcode ∧ i.pc = address ∧
    match s.opcode.mode with
    | .implied => i.operand = .none
    | .immediate | .memory => ∃ value, s.value? symbols = some value ∧ i.operand = .word value
    | .relative => ∃ value offset, s.value? symbols = some value ∧ i.operand = .offset offset ∧
        i.branchTarget = value

theorem value?_eq_some_iff :
    s.value? symbols = some value ↔
      ∃ argument, s.argument? = some argument ∧ argument.resolve symbols = .ok value := by
  simp only [value?, Option.bind_eq_some_iff]
  refine exists_congr fun argument => and_congr_right fun _ => ?_
  cases argument.resolve symbols <;> simp [Except.toOption]

/-- Only a label that the table does not have stands for nothing. -/
theorem encode_of_unresolved (harg : s.argument? = some argument)
    (hresolve : argument.resolve symbols = .error cause) :
    ∃ name, argument = .label name ∧ symbols[name]? = none ∧
      s.encode symbols address = .error (.undefinedLabel name) := by
  cases argument with
  | number value => cases hresolve
  | label name =>
    have hencode : s.encode symbols address = .error cause :=
      encode_eq_error_iff.2 ⟨_, harg, .inl hresolve⟩
    cases hsymbol : symbols[name]? with
    | some symbol => simp [Argument.resolve, hsymbol] at hresolve
    | none =>
      simp only [Argument.resolve, hsymbol, Except.error.injEq] at hresolve
      exact ⟨name, rfl, hsymbol, hresolve ▸ hencode⟩

theorem encode_of_far (hbranch : s.opcode.mode = .relative)
    (hvalue : s.value? symbols = some value)
    (hfar : ¬ (-128 ≤ branchDistance address value ∧ branchDistance address value ≤ 127)) :
    s.encode symbols address =
      .error (.offsetOutOfRange value (branchDistance address value)) := by
  obtain ⟨argument, harg, hresolve⟩ := value?_eq_some_iff.1 hvalue
  refine encode_eq_error_iff.2 ⟨argument, harg, .inr ⟨value, hresolve, ?_⟩⟩
  exact operandBytes_eq_error_iff.2 ⟨hbranch, _, rfl, hfar, rfl⟩

/-- There are no other ways to fail. -/
theorem Encodable.exists_encode (h : s.Encodable symbols address) :
    ∃ bytes, s.encode symbols address = .ok bytes := by
  cases hencode : s.encode symbols address with
  | ok bytes => exact ⟨bytes, rfl⟩
  | error cause =>
    obtain ⟨argument, harg, hresolve | ⟨value, hresolve, hbytes⟩⟩ := encode_eq_error_iff.1 hencode
    · obtain ⟨value, hvalue⟩ := h.resolves argument harg
      rw [hvalue] at hresolve
      cases hresolve
    · obtain ⟨hbranch, offset, hoffset, hfar, -⟩ := operandBytes_eq_error_iff.1 hbytes
      have hreach := h.inReach value hbranch (value?_eq_some_iff.2 ⟨argument, harg, hresolve⟩)
      rw [hoffset] at hfar
      exact absurd hreach hfar

/-- The opcode byte says how the bytes behind it are to be read. -/
theorem means_of_decode {p : Program} (hdecode : p.decode address = .ok i)
    (hop : i.opcode = s.opcode) (hvalue : i.value? = s.value? symbols) :
    s.Means symbols address i := by
  refine ⟨hop, Program.decode_pc hdecode, ?_⟩
  have hword (hm : i.opcode.mode = .immediate ∨ i.opcode.mode = .memory) :
      ∃ value, s.value? symbols = some value ∧ i.operand = .word value := by
    obtain ⟨lo, hi, -, -, hoperand⟩ := Program.decode_word hdecode hm
    refine ⟨Word.ofBytes lo hi, ?_, hoperand⟩
    rw [← hvalue, Instruction.value?, hoperand]
  cases hm : s.opcode.mode with
  | implied =>
    obtain ⟨-, -, hoperand⟩ := Program.decode_eq_ok_iff.1 hdecode
    rw [hop, hm] at hoperand
    exact (Option.some.inj hoperand).symm
  | immediate => exact hword (.inl (hop ▸ hm))
  | memory => exact hword (.inr (hop ▸ hm))
  | relative =>
    have hbranch : i.opcode.mode = .relative := hop ▸ hm
    obtain ⟨b, -, hoperand⟩ := Program.decode_branch hdecode hbranch
    refine ⟨i.branchTarget, b.toInt8, ?_, hoperand, rfl⟩
    rw [← hvalue, Program.value?_of_branch hdecode hbranch]

/-- A statement has no encoding when its label is unknown or its branch goes too far. Any other has
bytes of its size, and these decode to it at its address whatever stands around them, also where the
address behind them wraps. -/
theorem decode_encode (hs : s.Proper) (symbols : Symbols) (address : UInt16) :
    (∀ argument cause, s.argument? = some argument → argument.resolve symbols = .error cause →
      ∃ name, argument = .label name ∧ symbols[name]? = none ∧
        s.encode symbols address = .error (.undefinedLabel name)) ∧
    (∀ value, s.opcode.mode = .relative → s.value? symbols = some value →
      ¬ (-128 ≤ branchDistance address value ∧ branchDistance address value ≤ 127) →
      s.encode symbols address =
        .error (.offsetOutOfRange value (branchDistance address value))) ∧
    (s.Encodable symbols address →
      ∃ bytes, s.encode symbols address = .ok bytes ∧ bytes.length = s.size ∧
        ∀ before after : List UInt8, before.length = address.toNat →
          ∃ i, (Program.ofList (before ++ bytes ++ after)).decode address = .ok i ∧
            s.Means symbols address i) := by
  refine ⟨?_, ?_, ?_⟩
  · intro argument cause harg hresolve
    exact encode_of_unresolved harg hresolve
  · intro value hbranch hvalue hfar
    exact encode_of_far hbranch hvalue hfar
  · intro hencodable
    obtain ⟨bytes, hbytes⟩ := hencodable.exists_encode
    refine ⟨bytes, hbytes, length_encode hs hbytes, ?_⟩
    intro before after hlen
    have hat := Program.holdsAt_append before bytes after
    rw [hlen] at hat
    obtain ⟨i, hdecode, hop, hvalue⟩ := decode_of_holdsAt hs hbytes hat
    exact ⟨i, hdecode, means_of_decode hdecode hop hvalue⟩

/-- A branch whose opcode byte has the last address there is: its end wraps to 1, and its target is
found again by counting back from there. -/
theorem decode_encode_bne_at_end :
    let s : Statement := { opcode := .bne, argument? := some (.label "top") }
    let symbols : Symbols := Std.TreeMap.empty.insert "top" { address := 0xFFC0, definedAt := 1 }
    s.Proper ∧ s.encode symbols 0xFFFF = .ok [0xD0, 0xBF] ∧
      ∃ i, (Program.ofList (List.replicate 0xFFFF 0 ++ [0xD0, 0xBF] ++ [7])).decode 0xFFFF = .ok i ∧
        s.Means symbols 0xFFFF i ∧ i.nextPc = 1 ∧ i.branchTarget = 0xFFC0 := by
  intro s symbols
  have hs : s.Proper := by
    rw [Statement.Proper]
    decide
  have hvalue : ∀ value, s.value? symbols = some value → value = 0xFFC0 := by
    intro value hsome
    have htop : s.value? symbols = some 0xFFC0 := by decide +kernel
    exact Option.some.inj (hsome.symm.trans htop)
  have hencodable : s.Encodable symbols 0xFFFF := by
    refine ⟨?_, ?_⟩
    · rintro argument ⟨⟩
      exact ⟨0xFFC0, by decide +kernel⟩
    · intro value _ hsome
      rw [hvalue value hsome]
      decide
  have hencode : s.encode symbols 0xFFFF = .ok [0xD0, 0xBF] := by decide +kernel
  obtain ⟨bytes, hbytes, -, hdecodes⟩ := (decode_encode hs symbols 0xFFFF).2.2 hencodable
  obtain rfl : [0xD0, 0xBF] = bytes := Except.ok.inj (hencode.symm.trans hbytes)
  obtain ⟨i, hdecode, hmeans⟩ := hdecodes (List.replicate 0xFFFF 0) [7]
    (List.length_replicate.trans (by decide))
  have hparts := hmeans
  obtain ⟨hop, hpc, value, offset, hsome, -, htarget⟩ := hparts
  refine ⟨hs, hencode, i, hdecode, hmeans, ?_, htarget.trans (hvalue value hsome)⟩
  rw [Instruction.nextPc, Instruction.size, hpc, hop]
  decide

end Statement

end Source

end WordMachine
