import WordMachine.Fault

/-! Data memory: a fixed number of words that a word can address. -/
namespace WordMachine

structure Memory where
  cells : Array UInt16
  size_pos : 0 < cells.size
  size_le : cells.size ≤ 65536
  deriving DecidableEq

namespace Memory

/-- The most cells a word can address. -/
def maxWords : Nat := 65536

def defaultWords : Nat := 256

/-- The index of `address` among `limit` cells. -/
def index (address : UInt16) (limit : Nat) : Except Fault Nat :=
  if address.toNat < limit then .ok address.toNat else .error (.addressOutOfRange address limit)

/-- Cells holding zero. There is at least one and no more than can be addressed. -/
def zeroed (words : Nat) : Memory where
  cells := Array.replicate (max 1 (min words maxWords)) 0
  size_pos := by rw [Array.size_replicate]; omega
  size_le := by rw [Array.size_replicate, maxWords]; omega

variable (m : Memory)

def size : Nat := m.cells.size

def read (address : UInt16) : Except Fault UInt16 :=
  if h : address.toNat < m.cells.size then .ok m.cells[address.toNat]
  else .error (.addressOutOfRange address m.cells.size)

/-- The memory with `value` at `address`; an address past the end changes nothing. -/
def set (address value : UInt16) : Memory where
  cells := m.cells.setIfInBounds address.toNat value
  size_pos := by simpa using m.size_pos
  size_le := by simpa using m.size_le

def write (address value : UInt16) : Except Fault Memory :=
  if address.toNat < m.cells.size then .ok (m.set address value)
  else .error (.addressOutOfRange address m.cells.size)

/-- The cells that are not zero, with their indices. -/
def nonzero : List (Nat × UInt16) :=
  (m.cells.toList.zipIdx.filter (·.1 != 0)).map Prod.swap

@[simp] theorem size_zeroed (words : Nat) : (zeroed words).size = max 1 (min words 65536) := by
  simp [zeroed, size, maxWords]

@[simp] theorem size_set (address value : UInt16) : (m.set address value).size = m.size := by
  simp [set, size]

theorem read_eq_ok_iff {address value : UInt16} :
    m.read address = .ok value ↔ m.cells[address.toNat]? = some value := by
  unfold read
  split <;> simp_all

end Memory

end WordMachine
