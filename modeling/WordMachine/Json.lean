/-! JSON values. -/
namespace WordMachine

/-- A number that is not written as an integer keeps its text; the members of an object keep their
order. -/
inductive Json
  | null
  | bool (b : Bool)
  | int (n : Int)
  | decimal (text : String)
  | str (s : String)
  | arr (items : List Json)
  | obj (members : List (String × Json))
  deriving Inhabited

namespace Json

def nat (n : Nat) : Json := int n

def byte (b : UInt8) : Json := nat b.toNat

def word (w : UInt16) : Json := nat w.toNat

variable (j : Json)

/-- The member of an object with this name. -/
def member? (name : String) : Option Json :=
  match j with
  | obj members => members.lookup name
  | _ => none

/-- A member of an object, read as a value of another type. -/
def get? {α : Type} (name : String) (read : Json → Option α) : Option α :=
  (j.member? name).bind read

/-- A natural number below `limit`, written as an integer. -/
def nat? (limit : Nat) : Option Nat :=
  match j with
  | int (.ofNat n) => if n < limit then some n else none
  | _ => none

def byte? : Option UInt8 := (j.nat? UInt8.size).map UInt8.ofNat

def word? : Option UInt16 := (j.nat? UInt16.size).map UInt16.ofNat

/-- A count that fits 64 bits. -/
def count? : Option Nat := j.nat? UInt64.size

def bool? : Option Bool :=
  match j with
  | bool b => some b
  | _ => none

def str? : Option String :=
  match j with
  | str s => some s
  | _ => none

def arr? : Option (List Json) :=
  match j with
  | arr items => some items
  | _ => none

/-- A choice among named alternatives: the bare name, or an object whose one member has it. -/
def choice? : Option (String × Json) :=
  match j with
  | str name => some (name, null)
  | obj [(name, payload)] => some (name, payload)
  | _ => none

def isNull : Bool :=
  match j with
  | null => true
  | _ => false

end Json

end WordMachine
