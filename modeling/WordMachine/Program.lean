/-! A program: encoded bytes, the first at address zero. -/
namespace WordMachine

structure Program where
  bytes : Array UInt8
  deriving DecidableEq

namespace Program

/-- The largest program that assembles. -/
def maxBytes : Nat := 65535

def ofList (bytes : List UInt8) : Program := ⟨bytes.toArray⟩

variable (p : Program)

def size : Nat := p.bytes.size

def isEmpty : Bool := p.size == 0

def contains (pc : UInt16) : Bool := pc.toNat < p.size

def byte? (pc : UInt16) : Option UInt8 := p.bytes[pc.toNat]?

/-- The bytes from `pc` on, `length` of them if there are so many. -/
def slice (pc : UInt16) (length : Nat) : List UInt8 :=
  (p.bytes.extract pc.toNat (pc.toNat + length)).toList

theorem byte?_eq_none_iff {pc : UInt16} : p.byte? pc = none ↔ p.contains pc = false := by
  rw [contains, decide_eq_false_iff_not]
  simp [byte?, size]

end Program

end WordMachine
