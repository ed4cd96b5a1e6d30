import WordMachine.Opcode.Index
import WordMachine.Source.Error
import WordMachine.Source.Numeral

/-! Lines of source text: an optional label, then an optional statement. -/
namespace WordMachine.Source

inductive Argument
  | number (value : UInt16)
  | label (name : String)
  deriving DecidableEq, Repr

/-- An opcode and its argument. A parsed statement has one exactly when its opcode takes one. -/
structure Statement where
  opcode : Opcode
  argument? : Option Argument
  deriving DecidableEq, Repr

def Statement.size (s : Statement) : Nat := s.opcode.size

inductive Line
  | blank
  | label (name : String)
  | statement (label? : Option String) (body : Statement)
  deriving DecidableEq, Repr

def isLabelStart (c : Char) : Bool := c.isAlpha || c == '_'

def isLabelRest (c : Char) : Bool := c.isAlphanum || c == '_'

def isLabel : List Char → Bool
  | [] => false
  | c :: cs => isLabelStart c && cs.all isLabelRest

/-- A digit, `$` or `%` commits an argument to being a number. -/
def startsNumber : List Char → Bool
  | [] => false
  | c :: _ => c.isDigit || c == '$' || c == '%'

def Argument.parse (word : List Char) : Except Cause Argument :=
  if startsNumber word then
    match Numeral.parse? word with
    | some value => .ok (.number value)
    | none => .error (.malformedOperand (String.ofList word))
  else if isLabel word then .ok (.label (String.ofList word))
  else .error (.malformedOperand (String.ofList word))

/-- The words of a statement; several operands are reported with one space between them. -/
def Statement.parse : List (List Char) → Except Cause Statement
  | [] => .error (.malformedOperand "")
  | name :: operands =>
    match Opcode.resolve? (String.ofList name) with
    | none => .error (.unknownOpcode (String.ofList name))
    | some opcode =>
      match opcode.mode, operands with
      | .implied, [] => .ok { opcode, argument? := none }
      | .implied, _ :: _ => .error (.unexpectedOperand opcode)
      | _, [] => .error (.missingOperand opcode)
      | _, [word] => (Argument.parse word).map fun a => { opcode, argument? := some a }
      | _, many => .error (.malformedOperand (String.ofList ([' '].intercalate many)))

namespace Line

variable (line : Line)

def label? : Option String :=
  match line with
  | blank => none
  | label name => some name
  | statement label? _ => label?

def statement? : Option Statement :=
  match line with
  | blank | label _ => none
  | statement _ body => some body

/-- Labels take no room. -/
def size : Nat :=
  match line with
  | blank | label _ => 0
  | statement _ body => body.size

/-- A comment runs from `#` or `;` to the end of the line. -/
def code (text : List Char) : List Char := text.takeWhile fun c => c != '#' && c != ';'

/-- The name before the first colon and what comes after it. -/
def splitLabel? (text : List Char) : Option (List Char × List Char) :=
  match text.dropWhile (· != ':') with
  | [] => none
  | _ :: rest => some (Text.trim (text.takeWhile (· != ':')), rest)

/-- What follows the label, if any. -/
def parseBody (label? : Option String) (text : List Char) : Except Cause Line :=
  if text.isEmpty then
    .ok <| match label? with
      | none => blank
      | some name => label name
  else (Statement.parse (Text.words text)).map (statement label?)

def parse (text : List Char) : Except Cause Line :=
  let text := Text.trim (code text)
  match splitLabel? text with
  | none => parseBody none text
  | some (name, rest) =>
    if isLabel name then parseBody (some (String.ofList name)) (Text.trim rest)
    else .error (.invalidLabel (String.ofList name))

/-- The line with this number. -/
def parseAt (number : Nat) (text : List Char) : Except Error Line :=
  (parse text).mapError fun cause => { cause, line := number }

end Line

end WordMachine.Source
