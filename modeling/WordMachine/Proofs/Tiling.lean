import WordMachine.Proofs.Sweep

/-! Rows side by side: the sweep cuts the program into rows that begin where the last one ends,
from address zero until no byte is left that an address could name. -/
namespace WordMachine

variable {p : Program} {pc : UInt16} {i : Instruction}

namespace Program

theorem holdsAt_slice (p : Program) (pc : UInt16) (length : Nat) :
    p.HoldsAt pc.toNat (p.slice pc length) := by
  intro k hk
  rw [slice, Array.length_toList, Array.size_extract] at hk
  rw [slice, Array.getElem?_toList, Array.getElem?_extract, if_pos (by omega)]

theorem length_slice_of_decode (h : p.decode pc = .ok i) : (p.slice pc i.size).length = i.size := by
  have hle := add_size_le_of_decode h
  rw [size] at hle
  rw [slice, Array.length_toList, Array.size_extract]
  omega

end Program

namespace Disassembly

variable {row : Row} {rs : List Row} {start n k : Nat}

theorem address_of_row? (h : row? p pc = some row) : row.address = pc := by
  rcases row?_cases h with ⟨i, -, rfl⟩ | ⟨first, cause, -, -, rfl⟩ <;> rfl

theorem exists_of_illegal (hrow : row? p pc = some row) (hillegal : row.illegal = true) :
    ∃ fault, p.decode pc = .error fault := by
  rcases row?_cases hrow with ⟨i, -, rfl⟩ | ⟨first, fault, -, herror, -⟩
  · cases hillegal
  · exact ⟨fault, herror⟩

theorem exists_of_legal (hrow : row? p pc = some row) (hlegal : row.illegal = false) :
    ∃ i, p.decode pc = .ok i := by
  rcases row?_cases hrow with ⟨i, hdecode, -⟩ | ⟨first, fault, -, -, rfl⟩
  · exact ⟨i, hdecode⟩
  · cases hlegal

theorem bytes_of_decode (hrow : row? p pc = some row) (h : p.decode pc = .ok i) :
    row.bytes = p.slice pc i.size := by
  rw [row?_of_decode h] at hrow
  cases hrow
  rfl

/-- The bytes of a row are those of the program at its address. -/
theorem holdsAt_of_row? (h : row? p pc = some row) : p.HoldsAt pc.toNat row.bytes := by
  rcases row?_cases h with ⟨i, -, rfl⟩ | ⟨first, cause, hfirst, -, rfl⟩
  · exact p.holdsAt_slice pc i.size
  · intro k hk
    obtain rfl : k = 0 := by simpa using hk
    exact hfirst

theorem add_length_le_of_row? (h : row? p pc = some row) :
    pc.toNat + row.bytes.length ≤ p.size := by
  obtain ⟨-, hpos⟩ := bytes_of_row? h
  have hlast := holdsAt_of_row? h (row.bytes.length - 1) (by omega)
  rw [List.getElem?_eq_getElem (by omega)] at hlast
  have hlt := (Array.getElem?_eq_some_iff.1 hlast).1
  rw [Program.size]
  omega

theorem size_le_of_row?_none (h : row? p pc = none) : p.size ≤ pc.toNat := by
  by_contra hlt
  obtain ⟨first, hfirst⟩ := Program.exists_byte? (Nat.lt_of_not_le hlt)
  cases hdecode : p.decode pc <;> simp [row?, hfirst, hdecode] at h

/-- The rows from `start` on, each beginning where the last one ends. -/
def Tiles (p : Program) : (start : Nat) → List Row → Prop
  | start, [] => 65536 ≤ start ∨ p.size ≤ start
  | start, row :: rs =>
    start < 65536 ∧ row? p (.ofNat start) = some row ∧ Tiles p (start + row.bytes.length) rs

/-- How many bytes the rows before row `n` have. -/
def bytesBefore (rs : List Row) (n : Nat) : Nat := ((rs.take n).map (·.bytes.length)).sum

theorem bytesBefore_zero : bytesBefore rs 0 = 0 := rfl

theorem bytesBefore_cons :
    bytesBefore (row :: rs) (n + 1) = row.bytes.length + bytesBefore rs n := by
  simp [bytesBefore]

theorem tiles_rowsFrom (p : Program) (start : Nat) (acc : Array Row) :
    ∃ rs, (rowsFrom p start acc).toList = acc.toList ++ rs ∧ Tiles p start rs := by
  fun_induction rowsFrom p start acc with
  | case1 start acc hlt hnone =>
    have hle := size_le_of_row?_none hnone
    rw [UInt16.toNat_ofNat_of_lt' hlt] at hle
    exact ⟨[], by simp, .inr hle⟩
  | case2 start acc hlt row hrow ih =>
    obtain ⟨rs, hrs, htiles⟩ := ih
    exact ⟨row :: rs, by simpa using hrs, hlt, hrow, htiles⟩
  | case3 start acc hge => exact ⟨[], by simp, .inl (Nat.le_of_not_lt hge)⟩

theorem tiles_rows (p : Program) : Tiles p 0 (rows p) := by
  obtain ⟨rs, hrs, htiles⟩ := tiles_rowsFrom p 0 #[]
  rwa [rows, hrs, Array.toList_empty, List.nil_append]

namespace Tiles

variable (h : Tiles p start rs)
include h

theorem row?_of_getElem? (hn : rs[n]? = some row) :
    start + bytesBefore rs n < 65536 ∧ row? p (.ofNat (start + bytesBefore rs n)) = some row := by
  induction rs generalizing start n with
  | nil => simp at hn
  | cons first rs ih =>
    obtain ⟨hlt, hrow, hrest⟩ := h
    cases n with
    | zero =>
      cases hn
      exact ⟨hlt, hrow⟩
    | succ n =>
      rw [bytesBefore_cons, ← Nat.add_assoc]
      exact ih hrest hn

theorem le_size (hstart : start ≤ p.size) : start + bytesBefore rs rs.length ≤ p.size := by
  induction rs generalizing start with
  | nil => simpa [bytesBefore] using hstart
  | cons row rs ih =>
    obtain ⟨hlt, hrow, hrest⟩ := h
    have hle := add_length_le_of_row? hrow
    rw [UInt16.toNat_ofNat_of_lt' hlt] at hle
    rw [List.length_cons, bytesBefore_cons, ← Nat.add_assoc]
    exact ih hrest hle

theorem stop :
    65536 ≤ start + bytesBefore rs rs.length ∨ p.size ≤ start + bytesBefore rs rs.length := by
  induction rs generalizing start with
  | nil => exact h
  | cons row rs ih =>
    rw [List.length_cons, bytesBefore_cons, ← Nat.add_assoc]
    exact ih h.2.2

theorem exists_of_lt (hk : start ≤ k) (hlt : k < start + bytesBefore rs rs.length) :
    ∃ n row, rs[n]? = some row ∧ start + bytesBefore rs n ≤ k ∧
      k < start + bytesBefore rs n + row.bytes.length := by
  induction rs generalizing start with
  | nil => simp only [List.length_nil, bytesBefore_zero] at hlt; omega
  | cons row rs ih =>
    by_cases hin : k < start + row.bytes.length
    · exact ⟨0, row, rfl, hk, hin⟩
    · rw [List.length_cons, bytesBefore_cons, ← Nat.add_assoc] at hlt
      obtain ⟨n, row', hn, hle, hlt⟩ := ih h.2.2 (Nat.le_of_not_lt hin) hlt
      refine ⟨n + 1, row', hn, ?_⟩
      rw [bytesBefore_cons, ← Nat.add_assoc]
      exact ⟨hle, hlt⟩

end Tiles

theorem getElem?_rows (hn : (rows p)[n]? = some row) :
    row.address.toNat = bytesBefore (rows p) n ∧ row? p row.address = some row := by
  obtain ⟨hlt, hrow⟩ := (tiles_rows p).row?_of_getElem? hn
  rw [address_of_row? hrow]
  rw [Nat.zero_add] at hlt hrow ⊢
  exact ⟨UInt16.toNat_ofNat_of_lt' hlt, hrow⟩

theorem row?_of_mem (h : row ∈ rows p) : row? p row.address = some row := by
  obtain ⟨n, hn⟩ := List.mem_iff_getElem?.1 h
  exact (getElem?_rows hn).2

/-- The rows of a program that addresses can name have all of its bytes. -/
theorem bytesBefore_length (h : p.size ≤ 65535) :
    bytesBefore (rows p) (rows p).length = p.size := by
  have hstop := (tiles_rows p).stop
  have hle := (tiles_rows p).le_size (Nat.zero_le _)
  omega

end Disassembly

end WordMachine
