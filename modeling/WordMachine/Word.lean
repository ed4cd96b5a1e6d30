/-! Sixteen-bit words: their bytes, low byte first, and their sign. -/
namespace WordMachine.Word

/-- A word occupies two bytes of a program. -/
def size : Nat := 2

def low (w : UInt16) : UInt8 := w.toUInt8

def high (w : UInt16) : UInt8 := (w >>> 8).toUInt8

def ofBytes (lo hi : UInt8) : UInt16 := lo.toUInt16 ||| (hi.toUInt16 <<< 8)

def bytes (w : UInt16) : List UInt8 := [low w, high w]

/-- The word at `offset`, unless fewer than two bytes are left there. -/
def read? (bs : Array UInt8) (offset : Nat) : Option UInt16 :=
  match bs[offset]?, bs[offset + 1]? with
  | some lo, some hi => some (ofBytes lo hi)
  | _, _ => none

/-- Bit 15 is set. -/
def isNegative (w : UInt16) : Bool := 0x8000 ≤ w

theorem ofBytes_low_high (w : UInt16) : ofBytes (low w) (high w) = w := by
  apply UInt16.toBitVec_inj.1
  simp only [ofBytes, low, high, UInt16.toBitVec_or, UInt16.toBitVec_shiftLeft,
    UInt8.toBitVec_toUInt16, UInt16.toBitVec_toUInt8, UInt16.toBitVec_shiftRight]
  ext i hi
  simp only [BitVec.getElem_or, BitVec.getElem_setWidth]
  by_cases h : i < 8
  · simp [h, BitVec.getLsbD_eq_getElem hi]
  · simp [h, show 8 + (i - 8) = i by omega, show i - 8 < 8 by omega, BitVec.getLsbD_eq_getElem hi]

end WordMachine.Word
