/-! Lines of a text, the way an editor numbers them. -/
namespace WordMachine.Text

def dropReturn (cs : List Char) : List Char :=
  if cs.getLast? = some '\r' then cs.dropLast else cs

/-- A line ends at a line feed, which takes a carriage return before it along. What follows the
last line feed is a line only when it is not empty, and it keeps a final carriage return. -/
def lines (cs : List Char) : List (List Char) :=
  let parts := cs.splitOn '\n'
  parts.dropLast.map dropReturn ++ (parts.getLast?.toList.filter (!·.isEmpty))

@[simp] theorem lines_nil : lines [] = [] := by simp [lines]

end WordMachine.Text
