import WordMachine.Disassembly
import WordMachine.Proofs.Listing

/-! The sweep over an assembled program: it finds the statements again, one row for each. -/
namespace WordMachine.Disassembly

open Source

variable {p : Program} {pc : UInt16} {i : Instruction} {row : Row} {acc : Array Row} {start : Nat}
  {symbols : Symbols} {s : Statement} {bytes : List UInt8} {xs : List Listed} {x : Listed}

def upperDigits : List Char :=
  ['0', '1', '2', '3', '4', '5', '6', '7', '8', '9', 'A', 'B', 'C', 'D', 'E', 'F']

/-- The four hexadecimal digits of a word. -/
def fourDigits (w : UInt16) : String :=
  String.ofList <| [w.toNat / 4096, w.toNat / 256, w.toNat / 16, w.toNat].map fun n =>
    upperDigits.getD (n % 16) '?'

/-- The operand text of a statement: its value, which for a label is the address of the label. -/
inductive Shows (symbols : Symbols) (s : Statement) : String → Prop
  | nothing (hmode : s.opcode.mode = .implied) : Shows symbols s ""
  | number {value : UInt16} (hmode : s.opcode.mode ≠ .implied)
      (harg : s.argument? = some (.number value)) : Shows symbols s ("0x" ++ fourDigits value)
  | label {name : String} {symbol : Symbol} (hmode : s.opcode.mode ≠ .implied)
      (harg : s.argument? = some (.label name)) (hsymbol : symbols[name]? = some symbol) :
      Shows symbols s ("0x" ++ fourDigits symbol.address)

theorem digit_eq_getD (n : Nat) (h : n < 16) : Hex.digit n = upperDigits.getD n '?' := by
  revert n
  decide

theorem word_eq_fourDigits (w : UInt16) : Hex.word w = fourDigits w := by
  have hlt : ∀ n, n % 16 < 16 := fun n => Nat.mod_lt n (by decide)
  simp only [Hex.word, fourDigits, Hex.digits, digit_eq_getD _ (hlt _), Nat.div_div_eq_div_mul]
  rfl

theorem operandText_eq (i : Instruction) :
    operandText i = match i.value? with
      | none => ""
      | some value => "0x" ++ fourDigits value := by
  cases h : i.operand <;> simp [operandText, Instruction.value?, h, word_eq_fourDigits]

theorem slice_of_holdsAt (h : p.HoldsAt pc.toNat bytes) : p.slice pc bytes.length = bytes := by
  apply List.ext_getElem?
  intro k
  rw [Program.slice, Array.getElem?_toList, Array.getElem?_extract]
  by_cases hk : k < bytes.length
  · have hget := h k hk
    have hlt : pc.toNat + k < p.bytes.size := by
      rw [List.getElem?_eq_getElem hk] at hget
      exact (Array.getElem?_eq_some_iff.1 hget).1
    rw [if_pos (by omega), hget]
  · rw [if_neg (by omega), List.getElem?_eq_none (Nat.le_of_not_lt hk)]

theorem row?_of_decode (h : p.decode pc = .ok i) :
    row? p pc = some
      { address := pc
        bytes := p.slice pc i.size
        mnemonic := i.opcode.mnemonic
        operands := operandText i
        illegal := false } := by
  simp [row?, Program.byte?_of_decode h, h]

/-- A row shows an instruction, or else the one byte that starts none. -/
theorem row?_cases (h : row? p pc = some row) :
    (∃ i, p.decode pc = .ok i ∧ row =
      { address := pc
        bytes := p.slice pc i.size
        mnemonic := i.opcode.mnemonic
        operands := operandText i
        illegal := false }) ∨
    ∃ first cause, p.byte? pc = some first ∧ p.decode pc = .error cause ∧ row =
      { address := pc
        bytes := [first]
        mnemonic := ".byte"
        operands := "0x" ++ Hex.byte first ++ " ; " ++ remark cause
        illegal := true } := by
  unfold row? at h
  split at h
  · cases h
  · rename_i first hfirst
    split at h
    · rename_i i hdecode
      exact .inl ⟨i, hdecode, (Option.some.inj h).symm⟩
    · rename_i cause hdecode
      exact .inr ⟨first, cause, hfirst, hdecode, (Option.some.inj h).symm⟩

theorem rowsFrom_of_none (h : row? p (.ofNat start) = none) : rowsFrom p start acc = acc := by
  unfold rowsFrom
  split
  · split
    · rfl
    · rename_i row hrow
      simp [h] at hrow
  · rfl

theorem rowsFrom_of_some (hlt : start < 65536) (h : row? p (.ofNat start) = some row) :
    rowsFrom p start acc = rowsFrom p (start + row.bytes.length) (acc.push row) := by
  rw [rowsFrom, if_pos hlt]
  split
  · rename_i hrow
    simp [h] at hrow
  · rename_i row' hrow
    rw [h] at hrow
    cases hrow
    rfl

theorem row?_eq_none (h : p.size ≤ pc.toNat) : row? p pc = none := by
  have hnone : p.byte? pc = none := by simpa [Program.byte?, Program.size] using h
  simp [row?, hnone]

/-- Where a listing fills the rest of the program and each of its entries makes a row of its own
bytes, the sweep finds those rows and ends. -/
theorem rowsFrom_of_fills (acc : Array Row) (hsize : p.size ≤ 65535)
    (hfills : Fills p.size start xs)
    (hrows : ∀ x ∈ xs, ∃ row, row? p x.address = some row ∧ row.bytes = x.bytes) :
    ∃ rows, (rowsFrom p start acc).toList = acc.toList ++ rows ∧
      List.Forall₂ (fun x row => row? p x.address = some row) xs rows := by
  induction xs generalizing start acc with
  | nil =>
    have hstart : start = p.size := hfills
    have hnone : row? p (.ofNat start) = none := by
      apply row?_eq_none
      rw [UInt16.toNat_ofNat_of_lt' (by simp only [UInt16.size]; omega)]
      omega
    exact ⟨[], by rw [rowsFrom_of_none hnone, List.append_nil], .nil⟩
  | cons x xs ih =>
    obtain ⟨haddr, hrest⟩ := hfills
    obtain ⟨row, hrow, hbytes⟩ := hrows x List.mem_cons_self
    have hstart : UInt16.ofNat start = x.address := by
      rw [← haddr, UInt16.ofNat_toNat]
    obtain ⟨rows, hrows', hall⟩ :=
      ih (acc.push row) hrest fun x' hx' => hrows x' (List.mem_cons_of_mem x hx')
    refine ⟨row :: rows, ?_, .cons hrow hall⟩
    rw [rowsFrom_of_some (haddr ▸ x.address.toNat_lt) (hstart ▸ hrow), hbytes, hrows']
    simp

theorem shows_operandText (hs : s.Proper) (h : s.encode symbols pc = .ok bytes)
    (hvalue : i.value? = s.value? symbols) : Shows symbols s (operandText i) := by
  rw [operandText_eq, hvalue, Statement.value?]
  cases harg : s.argument? with
  | none => exact .nothing (hs.1 harg)
  | some argument =>
    have hmode : s.opcode.mode ≠ .implied := fun hm => by simp [hs.2 hm] at harg
    obtain ⟨value, -, hresolve, -⟩ := (encode_eq_ok_iff harg).1 h
    simp only [Option.bind_some, hresolve, Except.toOption]
    cases argument with
    | number v =>
      cases hresolve
      exact .number hmode harg
    | label name =>
      cases hsymbol : symbols[name]? with
      | none => simp [Argument.resolve, hsymbol] at hresolve
      | some symbol =>
        simp only [Argument.resolve, hsymbol, Except.ok.injEq] at hresolve
        exact hresolve ▸ .label hmode harg hsymbol

/-- Where the program holds the bytes of a statement, the row is that of the statement. -/
theorem row?_of_holdsAt (hs : s.Proper) (h : s.encode symbols pc = .ok bytes)
    (hat : p.HoldsAt pc.toNat bytes) :
    ∃ operands, Shows symbols s operands ∧
      row? p pc = some
        { address := pc, bytes, mnemonic := s.opcode.mnemonic, operands, illegal := false } := by
  obtain ⟨i, hdecode, hop, hvalue⟩ := decode_of_holdsAt hs h hat
  have hsize : i.size = bytes.length := by
    rw [length_encode hs h, Instruction.size, hop, Statement.size]
  refine ⟨operandText i, shows_operandText hs h hvalue, ?_⟩
  rw [row?_of_decode hdecode, hsize, slice_of_holdsAt hat, hop]

variable {text : String} {a : Assembly}

/-- Disassembling an assembled program finds the statements of its listing: a row has the address
and the bytes of its entry, and the mnemonic and the value of the statement on its line. -/
theorem rows_of_assemble (h : assemble text = .ok a) :
    (rows a.program).length = a.listing.length ∧
      ∀ (k : Nat) (row : Row) (x : Listed),
        (rows a.program)[k]? = some row → a.listing[k]? = some x →
        row.address = x.address ∧ row.bytes = x.bytes ∧ row.illegal = false ∧
          ∃ s, StandsOn (Text.lines text.toList) x.line s ∧
            row.mnemonic = s.opcode.mnemonic ∧ Shows a.symbols s row.operands := by
  obtain ⟨hprogram, hfills, hsize, hlisted⟩ := listing_of_assemble h
  have hrow : ∀ x ∈ a.listing, ∃ s operands, StandsOn (Text.lines text.toList) x.line s ∧
      Shows a.symbols s operands ∧ row? a.program x.address = some
        { address := x.address, bytes := x.bytes, mnemonic := s.opcode.mnemonic, operands,
          illegal := false } := by
    intro x hx
    obtain ⟨s, hstands, hencode⟩ := hlisted x hx
    have hat : a.program.HoldsAt x.address.toNat x.bytes := by
      rw [hprogram]
      exact Fills.holdsAt [] hfills hx
    obtain ⟨operands, hshows, hrow⟩ := row?_of_holdsAt hstands.proper hencode hat
    exact ⟨s, operands, hstands, hshows, hrow⟩
  obtain ⟨found, hfound, hall⟩ := rowsFrom_of_fills #[] hsize hfills fun x hx => by
    obtain ⟨s, operands, -, -, hx⟩ := hrow x hx
    exact ⟨_, hx, rfl⟩
  rw [rows, hfound, Array.toList_empty, List.nil_append]
  refine ⟨hall.length_eq.symm, ?_⟩
  intro k row x hk hx
  obtain ⟨s, operands, hstands, hshows, hsome⟩ := hrow x (List.mem_of_getElem? hx)
  have heq := rel_of_getElem? hall hx hk
  rw [hsome] at heq
  cases heq
  exact ⟨rfl, rfl, rfl, s, hstands, rfl, hshows⟩

/-- A loop of three statements. -/
theorem rows_of_loop :
    ∃ a, assemble "top: LDA 0x12AB\nBNE top\nBRK" = .ok a ∧
      (rows a.program).length = a.listing.length ∧ a.listing.length = 3 := by
  have hlength : (assemble "top: LDA 0x12AB\nBNE top\nBRK").map (·.listing.length) = .ok 3 := by
    decide +kernel
  obtain ⟨a, ha, hthree⟩ := map_eq_ok_iff.1 hlength
  exact ⟨a, ha, (rows_of_assemble ha).1, hthree⟩

end WordMachine.Disassembly
