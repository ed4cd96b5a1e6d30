import WordMachine.Proofs.Tiling

/-! What the sweep covers: each byte of the program that an address can name, once and in order, in
rows of one to three bytes. A program that is longer loses the rest. -/
namespace WordMachine

namespace Program

variable {p : Program} {n : Nat} {xs ys : List UInt8}

theorem HoldsAt.append (hx : p.HoldsAt n xs) (hy : p.HoldsAt (n + xs.length) ys) :
    p.HoldsAt n (xs ++ ys) := by
  induction xs generalizing n with
  | nil => exact hy
  | cons x xs ih =>
    obtain ⟨hfirst, hrest⟩ := holdsAt_cons.1 hx
    have hnext : n + (x :: xs).length = n + 1 + xs.length := by
      rw [List.length_cons]
      omega
    rw [hnext] at hy
    exact holdsAt_cons.2 ⟨hfirst, ih hrest hy⟩

/-- Bytes that stand at the start of a program begin it. -/
theorem HoldsAt.begins (h : p.HoldsAt 0 xs) : xs <+: p.bytes.toList := by
  rw [List.prefix_iff_getElem?]
  intro k hk
  have hget := h k hk
  rwa [Nat.zero_add, List.getElem?_eq_getElem hk, ← Array.getElem?_toList] at hget

end Program

namespace Disassembly

variable {p : Program} {pc : UInt16} {row : Row} {rs : List Row} {start : Nat}

theorem length_flatMap_bytes (rs : List Row) :
    (rs.flatMap (·.bytes)).length = bytesBefore rs rs.length := by
  rw [List.length_flatMap, bytesBefore, List.take_length]

theorem length_bytes_le (h : row? p pc = some row) : row.bytes.length ≤ 3 := by
  rcases row?_cases h with ⟨i, hdecode, rfl⟩ | ⟨first, cause, -, -, rfl⟩
  · rw [Program.length_slice_of_decode hdecode]
    exact i.opcode.mode.size_le
  · simp

theorem length_bytes_of_illegal (h : row? p pc = some row) (hillegal : row.illegal = true) :
    row.bytes.length = 1 := by
  rcases row?_cases h with ⟨i, -, rfl⟩ | ⟨first, cause, -, -, rfl⟩
  · cases hillegal
  · rfl

theorem illegal_iff (h : row? p pc = some row) :
    row.illegal = true ↔ ∃ cause, p.decode pc = .error cause := by
  constructor
  · exact exists_of_illegal h
  · rintro ⟨cause, herror⟩
    by_contra hlegal
    obtain ⟨i, hdecode⟩ := exists_of_legal h (Bool.not_eq_true _ ▸ hlegal)
    rw [herror] at hdecode
    cases hdecode

namespace Tiles

variable (h : Tiles p start rs)
include h

/-- The rows have between them the bytes of the program from their start on. -/
theorem holdsAt : p.HoldsAt start (rs.flatMap (·.bytes)) := by
  induction rs generalizing start with
  | nil => exact Program.holdsAt_nil
  | cons row rs ih =>
    obtain ⟨hlt, hrow, hrest⟩ := h
    have hat := holdsAt_of_row? hrow
    rw [UInt16.toNat_ofNat_of_lt' hlt] at hat
    rw [List.flatMap_cons]
    exact hat.append (ih hrest)

/-- Each row takes at least one of the bytes that an address can name. -/
theorem length_le : start + rs.length ≤ max start (min p.size 65536) := by
  induction rs generalizing start with
  | nil => exact Nat.le_max_left ..
  | cons row rs ih =>
    obtain ⟨hlt, hrow, hrest⟩ := h
    obtain ⟨hin, hpos⟩ := bytes_of_row? hrow
    rw [UInt16.toNat_ofNat_of_lt' hlt] at hin
    have hle := ih hrest
    rw [List.length_cons]
    omega

/-- The last row begins at an address, so that at most two of its bytes are behind the last one. -/
theorem end_le (hstart : start ≤ 65538) : start + bytesBefore rs rs.length ≤ 65538 := by
  induction rs generalizing start with
  | nil => exact hstart
  | cons row rs ih =>
    obtain ⟨hlt, hrow, hrest⟩ := h
    have hthree := length_bytes_le hrow
    rw [List.length_cons, bytesBefore_cons, ← Nat.add_assoc]
    exact ih hrest (by omega)

end Tiles

/-- The sweep ends, and its rows follow on one another from address zero: each shows an instruction
or the one byte that starts none, and together they are the program, or the part of a longer one
up to the row that holds the last address. -/
theorem rows_cover (p : Program) :
    (rows p).length ≤ min p.size 65536 ∧
    (∀ (k : Nat) (row : Row), (rows p)[k]? = some row →
      row.address.toNat = bytesBefore (rows p) k ∧
      1 ≤ row.bytes.length ∧ row.bytes.length ≤ 3 ∧
      (row.illegal = true ↔ ∃ cause, p.decode row.address = .error cause) ∧
      (row.illegal = true → row.bytes.length = 1)) ∧
    (p.size ≤ 65536 → (rows p).flatMap (·.bytes) = p.bytes.toList) ∧
    (65536 < p.size → (rows p).flatMap (·.bytes) <+: p.bytes.toList ∧
      65536 ≤ ((rows p).flatMap (·.bytes)).length ∧
      ((rows p).flatMap (·.bytes)).length ≤ 65538) := by
  have htiles := tiles_rows p
  have hbegins := htiles.holdsAt.begins
  have hstop := htiles.stop
  rw [Nat.zero_add, ← length_flatMap_bytes] at hstop
  refine ⟨?_, ?_, ?_, ?_⟩
  · have hle := htiles.length_le
    omega
  · intro k row hk
    obtain ⟨haddress, hrow⟩ := getElem?_rows hk
    exact ⟨haddress, (bytes_of_row? hrow).2, length_bytes_le hrow, illegal_iff hrow,
      length_bytes_of_illegal hrow⟩
  · intro hsize
    have hlength : p.bytes.toList.length = p.size := rfl
    exact hbegins.eq_of_length_le (by omega)
  · intro hsize
    have hend := htiles.end_le (Nat.zero_le _)
    rw [Nat.zero_add, ← length_flatMap_bytes] at hend
    exact ⟨hbegins, by omega, hend⟩

end Disassembly

end WordMachine
