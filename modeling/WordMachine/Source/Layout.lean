import WordMachine.Source.Line

/-! Layout: the address of every line and of every label. -/
namespace WordMachine.Source

structure Symbol where
  address : UInt16
  definedAt : Nat
  deriving DecidableEq, Repr

/-- Labels by name; case matters. -/
abbrev Symbols := Std.TreeMap String Symbol

/-- A line and the address where its bytes begin. -/
structure Placed where
  address : UInt16
  line : Line
  number : Nat
  deriving DecidableEq, Repr

structure Layout where
  lines : Array Placed := #[]
  symbols : Symbols := ∅
  size : Nat := 0

namespace Layout

/-- A line that does not fit is reported before a label that it defines again. -/
def add (l : Layout) (number : Nat) (line : Line) : Except Error Layout :=
  let size := l.size + line.size
  let address := UInt16.ofNat l.size
  let lines := l.lines.push { address, line, number }
  if Program.maxBytes < size then .error { cause := .programTooLarge size, line := number }
  else
    match line.label? with
    | none => .ok { lines, symbols := l.symbols, size }
    | some name =>
      match l.symbols[name]? with
      | some first =>
        .error { cause := .duplicateLabel name first.definedAt, line := number }
      | none =>
        .ok { lines, symbols := l.symbols.insert name { address, definedAt := number }, size }

/-- The layout of lines numbered from one. -/
def ofLines (lines : List Line) : Except Error Layout :=
  (lines.zipIdx 1).foldlM (fun l (line, number) => l.add number line) {}

end Layout

end WordMachine.Source
