import WordMachine.Source.Encoding

/-! Assembly of a whole source text in two passes: layout, then encoding. -/
namespace WordMachine.Source

/-- A statement with its bytes and the line of source text that it stands on. -/
structure Listed where
  address : UInt16
  bytes : List UInt8
  line : Nat
  source : String
  deriving DecidableEq, Repr

structure Assembly where
  program : Program
  listing : List Listed
  symbols : Symbols

def parseLines (texts : List (List Char)) : Except Error (List Line) :=
  (texts.zipIdx 1).mapM fun (text, number) => Line.parseAt number text

namespace Layout

variable (l : Layout)

/-- The lines that hold a statement, each with its text. -/
def statements (texts : List (List Char)) : List (Placed × Statement × List Char) :=
  (l.lines.toList.zip texts).filterMap fun (placed, text) =>
    placed.line.statement?.map fun s => (placed, s, text)

/-- The entry of one statement in the listing. -/
def entry (placed : Placed) (s : Statement) (text : List Char) : Except Error Listed :=
  match s.encode l.symbols placed.address with
  | .error cause => .error { cause, line := placed.number }
  | .ok bytes =>
    .ok
      { address := placed.address
        bytes
        line := placed.number
        source := String.ofList (Text.trim text) }

def listing (texts : List (List Char)) : Except Error (List Listed) :=
  (l.statements texts).mapM fun (placed, s, text) => l.entry placed s text

end Layout

/-- Assembles a text or reports the first error: of parsing, then of layout, then of encoding. -/
def assemble (text : String) : Except Error Assembly := do
  let texts := Text.lines text.toList
  let lines ← parseLines texts
  let layout ← Layout.ofLines lines
  let listing ← layout.listing texts
  return {
    program := .ofList (listing.flatMap (·.bytes))
    listing
    symbols := layout.symbols }

end WordMachine.Source
