/-! Table columns: a text is padded to its column and never cut. -/
namespace WordMachine.Text

def blanks (n : Nat) : String := String.ofList (List.replicate n ' ')

/-- Flush left in `width` characters. -/
def left (width : Nat) (s : String) : String := s ++ blanks (width - s.length)

/-- Flush right in `width` characters. -/
def right (width : Nat) (s : String) : String := blanks (width - s.length) ++ s

end WordMachine.Text
