import WordMachine.Proofs.Boundaries
import WordMachine.Proofs.RowText
import WordMachine.Proofs.Tiling

/-! Reassembly: the text of a disassembly assembles to the program that it was made from, unless a
row is illegal, the program is too large, or a branch leads over the end of the address space. -/
namespace WordMachine

open Source

namespace Disassembly

variable {p : Program} {pc : UInt16} {i : Instruction} {row : Row} {n : Nat} {cause : Cause}
  {name : String} {e : Error}

/-- Row `n` is illegal, and its marker is no mnemonic. -/
inductive IllegalAt (rs : List Row) (n : Nat) : Cause → Prop
  | intro {row : Row} (hrow : rs[n]? = some row) (hillegal : row.illegal = true) :
      IllegalAt rs n (.unknownOpcode ".byte")

/-- Where a branch at `pc` with this offset byte would lead if addresses did not wrap. -/
def reach (pc : UInt16) (b : UInt8) : Int := pc.toNat + 2 + b.toInt8.toInt

/-- Row `n` is a branch over the end of the address space: its target is at the other end. -/
inductive WrapsAt (rs : List Row) (n : Nat) : Cause → Prop
  | intro {row : Row} {op : Opcode} {b : UInt8} {target : UInt16} (hrow : rs[n]? = some row)
      (hbytes : row.bytes = [op.code, b]) (hbranch : op.mode = .relative)
      (hout : ¬ (0 ≤ reach row.address b ∧ reach row.address b ≤ 65535))
      (htarget : (target.toNat : Int) = reach row.address b % 65536) :
      WrapsAt rs n (.offsetOutOfRange target (target.toNat - (row.address.toNat + 2)))

/-- The bytes of a decoded branch, and its target: where it leads, wrapped at sixteen bits. -/
theorem bytes_of_branch (h : p.decode pc = .ok i) (hm : i.opcode.mode = .relative) :
    ∃ b, p.slice pc i.size = [i.opcode.code, b] ∧
      (i.branchTarget.toNat : Int) = reach pc b % 65536 := by
  obtain ⟨b, hb, hop⟩ := Program.decode_branch h hm
  have hsize : i.opcode.size = 2 := by rw [Opcode.size, hm]; rfl
  have hat : p.HoldsAt pc.toNat [i.opcode.code, b] :=
    Program.holdsAt_cons.2 ⟨Program.byte?_of_decode h, Program.holdsAt_cons.2
      ⟨hb, Program.holdsAt_nil⟩⟩
  refine ⟨b, ?_, ?_⟩
  · rw [Instruction.size, hsize]
    exact slice_of_holdsAt hat
  · have htarget := i.toNat_branchTarget
    simp only [Instruction.offset, hop, Program.decode_pc h, hsize, Word.wrap] at htarget
    rw [reach]
    omega

theorem opcode_of_bytes {op : Opcode} {rest : List UInt8} (hrow : row? p pc = some row)
    (h : p.decode pc = .ok i) (hbytes : row.bytes = op.code :: rest) : i.opcode = op := by
  have hat := holdsAt_of_row? hrow
  rw [hbytes] at hat
  have hcode := (Program.holdsAt_cons.1 hat).1.symm.trans (Program.byte?_of_decode h)
  exact Opcode.code_injective (Option.some.inj hcode).symm

/-- A target that is too far is exactly one that wrapped: it is a whole address space away. -/
theorem far_iff {b : UInt8} {target : UInt16} (h : (target.toNat : Int) = reach pc b % 65536) :
    ¬ (-128 ≤ (target.toNat : Int) - (pc.toNat + 2) ∧
        (target.toNat : Int) - (pc.toNat + 2) ≤ 127) ↔
      ¬ (0 ≤ reach pc b ∧ reach pc b ≤ 65535) := by
  have hpc := pc.toNat_lt
  have hlo := b.toInt8.le_toInt
  have hhi := b.toInt8.toInt_lt
  rw [reach] at *
  omega

/-- What the row of an instruction is parsed to. -/
def lineOf (p : Program) (row : Row) : Line :=
  match p.decode row.address with
  | .ok i => .statement none i.statement
  | .error _ => .blank

def parsed (p : Program) : List Line := (rows p).map (lineOf p)

/-- Parsing refuses the rows that are illegal. -/
theorem syntaxFault_iff :
    SyntaxFault ((rows p).map Row.line) n cause ↔ IllegalAt (rows p) n cause := by
  constructor
  · rintro ⟨text, htext, hparse⟩
    rw [List.getElem?_map, Option.map_eq_some_iff] at htext
    obtain ⟨row, hn, rfl⟩ := htext
    have hrow := row?_of_mem (List.mem_of_getElem? hn)
    cases hlegal : row.illegal with
    | false =>
      obtain ⟨i, hdecode⟩ := exists_of_legal hrow hlegal
      simp [parse_line_of_decode hrow hdecode] at hparse
    | true =>
      obtain ⟨fault, herror⟩ := exists_of_illegal hrow hlegal
      rw [parse_line_of_error hrow herror] at hparse
      cases hparse
      exact .intro hn hlegal
  · rintro ⟨hn, hillegal⟩
    have hrow := row?_of_mem (List.mem_of_getElem? hn)
    obtain ⟨fault, herror⟩ := exists_of_illegal hrow hillegal
    exact ⟨_, by rw [List.getElem?_map, hn]; rfl, parse_line_of_error hrow herror⟩

theorem getElem?_parsed {line : Line} :
    (parsed p)[n]? = some line ↔ ∃ row, (rows p)[n]? = some row ∧ lineOf p row = line := by
  rw [parsed, List.getElem?_map, Option.map_eq_some_iff]

theorem label?_lineOf (p : Program) (row : Row) : (lineOf p row).label? = none := by
  unfold lineOf
  split <;> rfl

theorem not_defines : ¬ Defines (parsed p) n name := by
  rintro ⟨line, hline, hlabel⟩
  obtain ⟨row, -, rfl⟩ := getElem?_parsed.1 hline
  simp [label?_lineOf] at hlabel

section Legal

variable (hlegal : ∀ row ∈ rows p, row.illegal = false)
include hlegal

theorem decode_of_mem (h : row ∈ rows p) : ∃ i, p.decode row.address = .ok i :=
  exists_of_legal (row?_of_mem h) (hlegal row h)

theorem parsesTo_parsed : ParsesTo ((rows p).map Row.line) (parsed p) := by
  rw [ParsesTo, parsed, List.forall₂_map_left_iff, List.forall₂_map_right_iff, List.forall₂_same]
  intro row hmem
  obtain ⟨i, hdecode⟩ := decode_of_mem hlegal hmem
  rw [parse_line_of_decode (row?_of_mem hmem) hdecode]
  simp [lineOf, hdecode]

theorem size_lineOf (h : row ∈ rows p) : (lineOf p row).size = row.bytes.length := by
  obtain ⟨i, hdecode⟩ := decode_of_mem hlegal h
  rw [bytes_of_decode (row?_of_mem h) hdecode, Program.length_slice_of_decode hdecode]
  simp [lineOf, hdecode, Line.size, Statement.size, Instruction.statement, Instruction.size]

theorem addressOf_parsed : addressOf (parsed p) n = bytesBefore (rows p) n := by
  rw [addressOf, bytesBefore, parsed, ← List.map_take, List.map_map]
  exact congrArg List.sum
    (List.map_congr_left fun row hrow => size_lineOf hlegal (List.mem_of_mem_take hrow))

theorem holds_iff {s : Statement} : Holds (parsed p) n s ↔
    ∃ row i, (rows p)[n]? = some row ∧ p.decode row.address = .ok i ∧ s = i.statement := by
  constructor
  · rintro ⟨line, hline, hs⟩
    obtain ⟨row, hn, rfl⟩ := getElem?_parsed.1 hline
    obtain ⟨i, hdecode⟩ := decode_of_mem hlegal (List.mem_of_getElem? hn)
    simp only [lineOf, hdecode, Line.statement?, Option.some.injEq] at hs
    exact ⟨row, i, hn, hdecode, hs.symm⟩
  · rintro ⟨row, i, hn, hdecode, rfl⟩
    refine ⟨lineOf p row, getElem?_parsed.2 ⟨row, hn, rfl⟩, ?_⟩
    simp [lineOf, hdecode, Line.statement?]

/-- The rows before the last one begin at addresses, so that only the last one can be too much. -/
theorem layoutFault_iff : LayoutFault (parsed p) n cause ↔
    65535 < p.size ∧ n + 1 = (rows p).length ∧
      cause = .programTooLarge ((rows p).map (·.bytes.length)).sum := by
  have htotal : ((rows p).map (·.bytes.length)).sum = bytesBefore (rows p) (rows p).length := by
    rw [bytesBefore, List.take_length]
  have hlength : (parsed p).length = (rows p).length := List.length_map _
  have hstop := (tiles_rows p).stop
  have hle := (tiles_rows p).le_size (Nat.zero_le _)
  rw [Nat.zero_add] at hstop hle
  rw [htotal]
  constructor
  · rintro (⟨hn, hsize⟩ | ⟨-, hn, -⟩)
    · rw [addressOf_parsed hlegal] at hsize ⊢
      rw [hlength] at hn
      have hlast : n + 1 = (rows p).length := by
        by_contra hne
        have hnext := List.getElem?_eq_getElem (l := rows p) (i := n + 1) (by omega)
        have haddress := (getElem?_rows hnext).1
        have := (rows p)[n + 1].address.toNat_lt
        omega
      rw [hlast] at hsize ⊢
      exact ⟨by omega, rfl, rfl⟩
    · exact absurd hn not_defines
  · rintro ⟨hsize, hlast, rfl⟩
    rw [← hlast, ← addressOf_parsed hlegal]
    refine .tooLarge (by omega) ?_
    rw [addressOf_parsed hlegal, hlast]
    omega

theorem distance_parsed {target : UInt16} (hn : (rows p)[n]? = some row) :
    distance (parsed p) n target = target.toNat - (row.address.toNat + 2) := by
  rw [distance, addressOf_parsed hlegal, (getElem?_rows hn).1]

/-- Encoding refuses the branches whose target wrapped. -/
theorem operandFault_iff : OperandFault (parsed p) n cause ↔ WrapsAt (rows p) n cause := by
  constructor
  · rintro (⟨hs, harg, -⟩ | ⟨hs, harg, hbranch, htarget, hfar⟩)
    · obtain ⟨row, i, -, -, rfl⟩ := (holds_iff hlegal).1 hs
      simp [Instruction.statement] at harg
    · obtain ⟨row, i, hn, hdecode, rfl⟩ := (holds_iff hlegal).1 hs
      rw [Instruction.statement, Program.value?_of_branch hdecode hbranch] at harg
      cases harg
      cases htarget
      obtain ⟨b, hbytes, hreach⟩ := bytes_of_branch hdecode hbranch
      rw [← bytes_of_decode (row?_of_mem (List.mem_of_getElem? hn)) hdecode] at hbytes
      rw [distance_parsed hlegal hn] at hfar ⊢
      exact .intro hn hbytes hbranch ((far_iff hreach).1 hfar) hreach
  · rintro (@⟨row, op, b, target, hn, hbytes, hbranch, hout, htarget⟩)
    have hrow := row?_of_mem (List.mem_of_getElem? hn)
    obtain ⟨i, hdecode⟩ := decode_of_mem hlegal (List.mem_of_getElem? hn)
    obtain rfl : i.opcode = op := opcode_of_bytes hrow hdecode hbytes
    obtain ⟨b', hbytes', hreach⟩ := bytes_of_branch hdecode hbranch
    obtain rfl : b' = b := by
      rw [bytes_of_decode hrow hdecode, hbytes'] at hbytes
      simpa using hbytes
    have hvalue : i.branchTarget = target := UInt16.toNat_inj.1 (by omega)
    rw [← distance_parsed hlegal hn]
    refine .outOfReach ((holds_iff hlegal).2 ⟨row, i, hn, hdecode, rfl⟩) ?_ hbranch (.number _) ?_
    · simp [Instruction.statement, Program.value?_of_branch hdecode hbranch, hvalue]
    · rw [distance_parsed hlegal hn]
      exact (far_iff htarget).2 hout

/-- Layout reports the last row of a program that is too large. -/
theorem reports_layoutFault_iff : Reports (LayoutFault (parsed p)) e ↔
    65535 < p.size ∧ e =
      { cause := .programTooLarge ((rows p).map (·.bytes.length)).sum
        line := (rows p).length } := by
  obtain ⟨cause, line⟩ := e
  simp only [Reports, layoutFault_iff hlegal, Error.mk.injEq]
  constructor
  · rintro ⟨n, hline, ⟨hsize, hlast, hcause⟩, -⟩
    exact ⟨hsize, hcause, hline.trans hlast⟩
  · rintro ⟨hsize, rfl, rfl⟩
    have hpos : 0 < (rows p).length := by
      by_contra hzero
      have hstop := (tiles_rows p).stop
      rw [Nat.eq_zero_of_not_pos hzero, bytesBefore_zero] at hstop
      omega
    refine ⟨(rows p).length - 1, by omega, ⟨hsize, by omega, rfl⟩, ?_⟩
    rintro k hk cause ⟨-, hlast, -⟩
    omega

theorem exists_ofLines_parsed_iff :
    (∃ l, Layout.ofLines (parsed p) = .ok l) ↔ p.size ≤ 65535 := by
  rw [Layout.exists_ofLines_iff]
  constructor
  · intro hnone
    by_contra hsize
    obtain ⟨n, -, hfault, -⟩ :=
      (reports_layoutFault_iff hlegal).2 ⟨Nat.lt_of_not_le hsize, rfl⟩
    exact hnone n _ hfault
  · intro hsize n cause hfault
    have := ((layoutFault_iff hlegal).1 hfault).1
    omega

end Legal

theorem lines_text_rows : Text.lines (text (rows p)).toList = (rows p).map Row.line :=
  lines_text fun row hrow => ⟨row.address, row?_of_mem hrow⟩

/-- Only a text of legal rows is parsed. -/
theorem parsesTo_iff {ls : List Line} : ParsesTo ((rows p).map Row.line) ls ↔
    (∀ row ∈ rows p, row.illegal = false) ∧ ls = parsed p := by
  constructor
  · intro hls
    have hparse := parseLines_eq_ok_iff.2 hls
    have hnone := (exists_ok_iff_of_reports fun _ => parseLines_eq_error_iff).1 ⟨ls, hparse⟩
    have hlegal : ∀ row ∈ rows p, row.illegal = false := by
      intro row hrow
      obtain ⟨n, hn⟩ := List.mem_iff_getElem?.1 hrow
      cases hillegal : row.illegal with
      | false => rfl
      | true => exact absurd (syntaxFault_iff.2 (.intro hn hillegal)) (hnone n _)
    rw [parseLines_eq_ok_iff.2 (parsesTo_parsed hlegal)] at hparse
    exact ⟨hlegal, (Except.ok.inj hparse).symm⟩
  · rintro ⟨hlegal, rfl⟩
    exact parsesTo_parsed hlegal

variable {a : Assembly}

theorem stages_of_assemble (h : assemble (text (rows p)) = .ok a) :
    (∀ row ∈ rows p, row.illegal = false) ∧ ∃ l, Layout.ofLines (parsed p) = .ok l ∧
      l.listing ((rows p).map Row.line) = .ok a.listing ∧
      a.program = .ofList (a.listing.flatMap (·.bytes)) := by
  obtain ⟨ls, l, hls, hl, hlisting, -, hprogram⟩ := assemble_eq_ok_iff.1 h
  rw [lines_text_rows] at hls hlisting
  obtain ⟨hlegal, rfl⟩ := parsesTo_iff.1 hls
  exact ⟨hlegal, l, hl, hlisting, hprogram⟩

/-- The program of the listing has the bytes of every row at the address of the row. -/
theorem holdsAt_of_assemble (h : assemble (text (rows p)) = .ok a) (hn : (rows p)[n]? = some row) :
    a.program.HoldsAt row.address.toNat row.bytes := by
  obtain ⟨hlegal, l, hl, hlisting, -⟩ := stages_of_assemble h
  obtain ⟨i, hdecode⟩ := decode_of_mem hlegal (List.mem_of_getElem? hn)
  obtain ⟨x, hx, -, haddress, hencode⟩ :=
    exists_listed (Layout.describes_of_ofLines hl) (parsesTo_parsed hlegal) hlisting
      ((holds_iff hlegal).2 ⟨row, i, hn, hdecode, rfl⟩)
  rw [addressOf_parsed hlegal, ← (getElem?_rows hn).1, UInt16.ofNat_toNat] at haddress
  rw [haddress] at hencode
  have hbytes : row.bytes = x.bytes := by
    have hlength := length_encode (Program.proper_statement hdecode) hencode
    rw [bytes_of_decode (getElem?_rows hn).2 hdecode,
      ← slice_of_holdsAt (Program.holdsAt_of_encode hdecode hencode), hlength]
    rfl
  rw [hbytes, ← haddress]
  exact holdsAt_of_listed h hx

/-- A disassembly never assembles to another program. -/
theorem program_of_assemble (h : assemble (text (rows p)) = .ok a) : a.program = p := by
  obtain ⟨hlegal, l, hl, hlisting, hprogram⟩ := stages_of_assemble h
  have hfills := fills_listing (Layout.describes_of_ofLines hl) (parsesTo_parsed hlegal) hlisting
  have hlength := bytesBefore_length ((exists_ofLines_parsed_iff hlegal).1 ⟨l, hl⟩)
  have hsize : a.program.size = p.size := by
    rw [hprogram, hfills.size_program, addressOf_parsed hlegal, parsed, List.length_map, hlength]
  have hbytes : a.program.bytes = p.bytes := by
    apply Array.ext_getElem?
    intro k
    by_cases hk : k < p.size
    · obtain ⟨n, row, hn, hle, hlt⟩ :=
        (tiles_rows p).exists_of_lt (Nat.zero_le k) (by rwa [Nat.zero_add, hlength])
      obtain ⟨haddress, hrow⟩ := getElem?_rows hn
      rw [Nat.zero_add, ← haddress] at hle hlt
      obtain ⟨j, rfl⟩ := Nat.exists_eq_add_of_le hle
      rw [holdsAt_of_assemble h hn j (by omega), holdsAt_of_row? hrow j (by omega)]
    · simp only [Program.size] at hk hsize
      rw [Array.getElem?_eq_none (by omega), Array.getElem?_eq_none (by omega)]
  exact congrArg Program.mk hbytes

theorem listing_reports_wraps {l : Layout} (hlegal : ∀ row ∈ rows p, row.illegal = false)
    (hl : Layout.ofLines (parsed p) = .ok l) :
    l.listing ((rows p).map Row.line) = .error e ↔ Reports (WrapsAt (rows p)) e :=
  (listing_reports (parsesTo_parsed hlegal) hl e).trans
    (reports_congr fun _ _ => operandFault_iff hlegal)

theorem exists_assemble_iff : (∃ a, assemble (text (rows p)) = .ok a) ↔
    (∀ row ∈ rows p, row.illegal = false) ∧ p.size ≤ 65535 ∧
      ∀ n cause, ¬ WrapsAt (rows p) n cause := by
  constructor
  · rintro ⟨a, ha⟩
    obtain ⟨hlegal, l, hl, hlisting, -⟩ := stages_of_assemble ha
    exact ⟨hlegal, (exists_ofLines_parsed_iff hlegal).1 ⟨l, hl⟩,
      (exists_ok_iff_of_reports fun _ => listing_reports_wraps hlegal hl).1 ⟨_, hlisting⟩⟩
  · rintro ⟨hlegal, hsize, hnone⟩
    obtain ⟨l, hl⟩ := (exists_ofLines_parsed_iff hlegal).2 hsize
    obtain ⟨xs, hxs⟩ :=
      (exists_ok_iff_of_reports fun _ => listing_reports_wraps hlegal hl).2 hnone
    refine ⟨{ program := .ofList (xs.flatMap (·.bytes)), listing := xs, symbols := l.symbols },
      assemble_eq_ok_iff.2 ⟨parsed p, l, ?_, hl, ?_, rfl, rfl⟩⟩
    · rw [lines_text_rows]
      exact parsesTo_parsed hlegal
    · rw [lines_text_rows]
      exact hxs

/-- The text of a disassembly assembles to the program itself, unless a row is illegal, or else the
program is too large, or else a branch wraps; then the first such row is reported. -/
theorem assemble_text_rows (p : Program) :
    (∀ e, assemble (text (rows p)) = .error e ↔
      Reports (IllegalAt (rows p)) e ∨
      (∀ row ∈ rows p, row.illegal = false) ∧
        ((65535 < p.size ∧ e =
            { cause := .programTooLarge ((rows p).map (·.bytes.length)).sum
              line := (rows p).length }) ∨
          (p.size ≤ 65535 ∧ Reports (WrapsAt (rows p)) e))) ∧
    ∀ q, (assemble (text (rows p))).map (·.program) = .ok q ↔
      q = p ∧ (∀ row ∈ rows p, row.illegal = false) ∧ p.size ≤ 65535 ∧
        ∀ n cause, ¬ WrapsAt (rows p) n cause := by
  constructor
  · intro e
    rw [assemble_eq_error_iff, parseLines_eq_error_iff, lines_text_rows,
      reports_congr fun _ _ => syntaxFault_iff]
    simp only [parsesTo_iff, and_assoc, exists_and_left, exists_eq_left]
    refine or_congr_right (and_congr_right fun hlegal => ?_)
    rw [Layout.ofLines_eq_error_iff, reports_layoutFault_iff hlegal,
      ← exists_ofLines_parsed_iff hlegal]
    refine or_congr_right ?_
    constructor
    · rintro ⟨l, hl, herror⟩
      exact ⟨⟨l, hl⟩, (listing_reports_wraps hlegal hl).1 herror⟩
    · rintro ⟨⟨l, hl⟩, hwraps⟩
      exact ⟨l, hl, (listing_reports_wraps hlegal hl).2 hwraps⟩
  · intro q
    rw [map_eq_ok_iff, ← exists_assemble_iff]
    constructor
    · rintro ⟨a, ha, rfl⟩
      exact ⟨program_of_assemble ha, a, ha⟩
    · rintro ⟨rfl, a, ha⟩
      exact ⟨a, ha, program_of_assemble ha⟩

/-- A branch below address zero is legal, but its row names an address that is out of reach. -/
example : (assemble (text (rows (.ofList [0xD0, 0x80])))).map (·.listing) =
    .error { cause := .offsetOutOfRange 0xFF82 0xFF80, line := 1 } := by decide +kernel

end Disassembly

end WordMachine
