import WordMachine.Digits

/-! Numerals in source text. -/
namespace WordMachine.Source.Numeral

/-- The radix that a literal announces, and its digits. -/
def split : List Char → Nat × List Char
  | '$' :: digits | '0' :: 'x' :: digits | '0' :: 'X' :: digits => (16, digits)
  | '%' :: digits | '0' :: 'b' :: digits | '0' :: 'B' :: digits => (2, digits)
  | digits => (10, digits)

/-- The word that a literal stands for; a value that is no word is refused. -/
def parse? (text : List Char) : Option UInt16 :=
  let (radix, digits) := split text
  ((Digits.value? radix digits).filter (· < 65536)).map UInt16.ofNat

end WordMachine.Source.Numeral
