/-! Fixed-width upper-case hexadecimal. -/
namespace WordMachine.Hex

def digit (n : Nat) : Char :=
  if n < 10 then Char.ofNat (48 + n) else Char.ofNat (55 + n)

/-- The last `width` digits of `n`, most significant first. -/
def digits : (width n : Nat) → List Char
  | 0, _ => []
  | w + 1, n => digits w (n / 16) ++ [digit (n % 16)]

def byte (b : UInt8) : String := String.ofList (digits 2 b.toNat)

def word (w : UInt16) : String := String.ofList (digits 4 w.toNat)

/-- Bytes in reading order, a space between two of them. -/
def bytes (bs : List UInt8) : String := " ".intercalate (bs.map byte)

@[simp] theorem length_digits (w n : Nat) : (digits w n).length = w := by
  induction w generalizing n with
  | zero => rfl
  | succ w ih => simp [digits, ih]

end WordMachine.Hex
