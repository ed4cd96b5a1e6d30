import WordMachine.Json
import WordMachine.Json.Token

/-! JSON values of text. Arrays and objects that are still open are kept in a list, so that the
depth of a value costs no stack. -/
namespace WordMachine.Json

/-- What stands before and after the first character of a kind. -/
def cut (isCut : Char → Bool) (cs : List Char) : List Char × Option (List Char) :=
  (cs.takeWhile (!isCut ·), (cs.dropWhile (!isCut ·)).tail?)

def isDigits (cs : List Char) : Bool := !cs.isEmpty && cs.all Char.isDigit

/-- Zero alone, or digits that start with none. -/
def isWhole (cs : List Char) : Bool := cs == ['0'] || (isDigits cs && cs.head? != some '0')

def isExponent : List Char → Bool
  | '+' :: digits | '-' :: digits | digits => isDigits digits

/-- A number with a fraction or an exponent is no integer, whatever its value; nor is `-0`. -/
def number? (word : List Char) : Option Json :=
  let negative := word.head? == some '-'
  let (mantissa, exponent?) :=
    cut (fun c => c == 'e' || c == 'E') (if negative then word.tail else word)
  let (whole, fraction?) := cut (· == '.') mantissa
  if isWhole whole && fraction?.all isDigits && exponent?.all isExponent then
    if fraction?.isSome || exponent?.isSome || word == ['-', '0'] then
      some (decimal (String.ofList word))
    else (Digits.value? 10 whole).map fun n => int (if negative then -n else n)
  else none

def scalar? (word : List Char) : Option Json :=
  if word = "null".toList then some null
  else if word = "true".toList then some (bool true)
  else if word = "false".toList then some (bool false)
  else number? word

/-- An array or object around the value that is read: its parts before it, latest first, and the
name of that value. -/
inductive Frame
  | arr (items : List Json)
  | obj (members : List (String × Json)) (name : String)

/-- What may come next, within the frames around it, the innermost first. -/
inductive Parse
  | value (around : List Frame)
  | firstItem (around : List Frame)
  | nextItem (items : List Json) (around : List Frame)
  | firstName (around : List Frame)
  | nextName (members : List (String × Json)) (around : List Frame)
  | colon (members : List (String × Json)) (name : String) (around : List Frame)
  | nextMember (members : List (String × Json)) (around : List Frame)
  | done (j : Json)

namespace Parse

/-- A value is complete. Of two members with one name the later counts. -/
def close (j : Json) : List Frame → Parse
  | [] => done j
  | .arr items :: around => nextItem (j :: items) around
  | .obj members name :: around => nextMember ((name, j) :: members.filter (·.1 != name)) around

def begin (around : List Frame) : Token → Option Parse
  | .mark '[' => some (firstItem around)
  | .mark '\x7b' => some (firstName around)
  | .mark _ => none
  | .text s => some (close (.str s) around)
  | .word letters => (scalar? letters).map fun j => close j around

def next : Parse → Token → Option Parse
  | value around, token => begin around token
  | firstItem around, .mark ']' => some (close (.arr []) around)
  | firstItem around, token => begin (.arr [] :: around) token
  | nextItem items around, .mark ',' => some (value (.arr items :: around))
  | nextItem items around, .mark ']' => some (close (.arr items.reverse) around)
  | firstName around, .mark '\x7d' => some (close (.obj []) around)
  | firstName around, .text s => some (colon [] s around)
  | nextName members around, .text s => some (colon members s around)
  | colon members s around, .mark ':' => some (value (.obj members s :: around))
  | nextMember members around, .mark ',' => some (nextName members around)
  | nextMember members around, .mark '\x7d' => some (close (.obj members.reverse) around)
  | _, _ => none

def result? : Parse → Option Json
  | done j => some j
  | _ => none

end Parse

/-- The one value that a text writes. -/
def parse? (s : String) : Option Json :=
  (tokens? s).bind fun tokens => (tokens.foldlM Parse.next (.value [])).bind Parse.result?

end WordMachine.Json
