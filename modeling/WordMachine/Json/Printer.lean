import WordMachine.Json

/-! JSON text: on one line, or indented by two spaces with sorted members. -/
namespace WordMachine.Json

def hexDigit (n : Nat) : Char := "0123456789abcdef".toList.getD n '0'

/-- Only the quote, the backslash and the control characters below the space are escaped. -/
def escape (s : String) (c : Char) : String :=
  if c == '"' then s ++ "\\\""
  else if c == '\\' then s ++ "\\\\"
  else if c == '\n' then s ++ "\\n"
  else if c == '\r' then s ++ "\\r"
  else if c == '\t' then s ++ "\\t"
  else if c == '\x08' then s ++ "\\b"
  else if c == '\x0c' then s ++ "\\f"
  else if c.toNat < 32 then
    ((s ++ "\\u00").push (hexDigit (c.toNat / 16))).push (hexDigit (c.toNat % 16))
  else s.push c

/-- Appends `text` in quotes. -/
def quote (s text : String) : String := (text.toList.foldl escape (s.push '"')).push '"'

mutual

/-- Appends a value on one line, with no space in it. -/
def write (s : String) : Json → String
  | null => s ++ "null"
  | bool true => s ++ "true"
  | bool false => s ++ "false"
  | int n => s ++ n.repr
  | decimal text => s ++ text
  | str text => quote s text
  | arr items => (writeItems (s.push '[') true items).push ']'
  | obj members => (writeMembers (s.push '\x7b') true members).push '\x7d'

def writeItems (s : String) (first : Bool) : List Json → String
  | [] => s
  | j :: js => writeItems (write (if first then s else s.push ',') j) false js

def writeMembers (s : String) (first : Bool) : List (String × Json) → String
  | [] => s
  | (name, j) :: rest =>
    writeMembers (write ((quote (if first then s else s.push ',') name).push ':') j) false rest

end

def compact (j : Json) : String := write "" j

/-- A line feed and the indentation of `depth` levels. -/
def newline (s : String) (depth : Nat) : String := (s.push '\n').pushn ' ' (2 * depth)

mutual

/-- Appends a value over several lines; an empty array or object stays on its line. -/
def layOut (s : String) (depth : Nat) : Json → String
  | arr [] => s ++ "[]"
  | obj [] => (s.push '\x7b').push '\x7d'
  | arr items => (newline (layOutItems (s.push '[') (depth + 1) true items) depth).push ']'
  | obj members =>
    (newline (layOutMembers (s.push '\x7b') (depth + 1) true members) depth).push '\x7d'
  | null => s ++ "null"
  | bool true => s ++ "true"
  | bool false => s ++ "false"
  | int n => s ++ n.repr
  | decimal text => s ++ text
  | str text => quote s text

def layOutItems (s : String) (depth : Nat) (first : Bool) : List Json → String
  | [] => s
  | j :: js =>
    layOutItems (layOut (newline (if first then s else s.push ',') depth) depth j) depth false js

def layOutMembers (s : String) (depth : Nat) (first : Bool) : List (String × Json) → String
  | [] => s
  | (name, j) :: rest =>
    let s := quote (newline (if first then s else s.push ',') depth) name
    layOutMembers (layOut (s ++ ": ") depth j) depth false rest

end

/-- Object members by name, at every depth. -/
def sortMembers : Json → Json
  | arr items => arr (items.attach.map fun ⟨j, _⟩ => sortMembers j)
  | obj members =>
    obj ((members.attach.map fun ⟨(name, j), _⟩ => (name, sortMembers j)).mergeSort
      fun a b => a.1 ≤ b.1)
  | j => j
decreasing_by
  · decreasing_tactic
  · have := List.sizeOf_lt_of_mem ‹(name, j) ∈ members›
    simp at *
    omega

def pretty (j : Json) : String := layOut "" 0 j.sortMembers

end WordMachine.Json
