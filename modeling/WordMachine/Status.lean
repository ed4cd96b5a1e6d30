/-! The status flags and the byte that packs them. -/
namespace WordMachine

/-- One truth value for each bit of the status byte, lowest bit first. No instruction sets
`interruptDisable`, `decimal` or `breakMark`, and `spare` has no meaning. -/
structure Status where
  carry : Bool := false
  zero : Bool := false
  interruptDisable : Bool := false
  decimal : Bool := false
  breakMark : Bool := false
  spare : Bool := false
  overflow : Bool := false
  negative : Bool := false
  deriving DecidableEq, Repr, Inhabited

namespace Status

def toByte (s : Status) : UInt8 :=
  UInt8.ofNat <| s.carry.toNat + 2 * s.zero.toNat + 4 * s.interruptDisable.toNat +
    8 * s.decimal.toNat + 16 * s.breakMark.toNat + 32 * s.spare.toNat +
    64 * s.overflow.toNat + 128 * s.negative.toNat

def ofByte (b : UInt8) : Status where
  carry := b.toNat.testBit 0
  zero := b.toNat.testBit 1
  interruptDisable := b.toNat.testBit 2
  decimal := b.toNat.testBit 3
  breakMark := b.toNat.testBit 4
  spare := b.toNat.testBit 5
  overflow := b.toNat.testBit 6
  negative := b.toNat.testBit 7

/-- The bits that can be written: all but `spare`. -/
def activeMask : UInt8 := 0xDF

/-- The status that a program may load from a byte. -/
def load (b : UInt8) : Status := ofByte (b &&& activeMask)

/-- Some flag of `mask` is set. -/
def test (s : Status) (mask : UInt8) : Bool := s.toByte &&& mask != 0

/-- Sets or clears the flags of `mask`, the spare bit apart. -/
def assign (s : Status) (mask : UInt8) (on : Bool) : Status :=
  ofByte <| if on then s.toByte ||| (mask &&& activeMask) else s.toByte &&& ~~~(mask &&& activeMask)

theorem ofByte_toByte (s : Status) : ofByte s.toByte = s := by
  rcases s with ⟨_ | _, _ | _, _ | _, _ | _, _ | _, _ | _, _ | _, _ | _⟩ <;> rfl

theorem toByte_ofByte (b : UInt8) : (ofByte b).toByte = b := by
  have h : ∀ i : Fin 256, (ofByte (UInt8.ofNat i.val)).toByte = UInt8.ofNat i.val := by
    decide +kernel
  simpa using h ⟨b.toNat, b.toNat_lt⟩

end Status

end WordMachine
