import WordMachine.Digits

/-! Tokens of JSON text. -/
namespace WordMachine.Json

/-- A bare word is a number or a name such as `true`. -/
inductive Token
  | mark (c : Char)
  | text (s : String)
  | word (letters : List Char)
  deriving DecidableEq

def isBlank (c : Char) : Bool := [' ', '\t', '\n', '\r'].contains c

def isMark (c : Char) : Bool := ['[', ']', '\x7b', '\x7d', ',', ':'].contains c

/-- The character that a backslash and this letter write. -/
def escaped? : Char → Option Char
  | '"' => some '"'
  | '\\' => some '\\'
  | '/' => some '/'
  | 'b' => some '\x08'
  | 'f' => some '\x0c'
  | 'n' => some '\n'
  | 'r' => some '\r'
  | 't' => some '\t'
  | _ => none

/-- The character past the 16-bit range that two halves write. -/
def joined? (high low : Nat) : Option Char :=
  if 0xD800 ≤ high ∧ high < 0xDC00 ∧ 0xDC00 ≤ low ∧ low < 0xE000 then
    some (Char.ofNat (0x10000 + (high - 0xD800) * 0x400 + (low - 0xDC00)))
  else none

/-- What the inside of a quoted text stands for, after `read`. Half of a character alone is
refused. -/
def unescape? (read : String) : List Char → Option String
  | [] => some read
  | '\\' :: 'u' :: a :: b :: c :: d :: rest =>
    match Digits.value? 16 [a, b, c, d] with
    | none => none
    | some code =>
      if code.isValidChar then unescape? (read.push (Char.ofNat code)) rest
      else
        match rest with
        | '\\' :: 'u' :: e :: f :: g :: h :: rest =>
          match (Digits.value? 16 [e, f, g, h]).bind (joined? code) with
          | none => none
          | some char => unescape? (read.push char) rest
        | _ => none
  | '\\' :: letter :: rest =>
    match escaped? letter with
    | none => none
    | some char => unescape? (read.push char) rest
  | '\\' :: [] => none
  | char :: rest => unescape? (read.push char) rest

/-- What a scan is in the middle of; characters are latest first. -/
inductive Pending
  | nothing
  | word (read : List Char)
  | text (read : List Char)
  | escape (read : List Char)

/-- The tokens so far, latest first, and what is pending. -/
structure Scan where
  tokens : List Token := []
  pending : Pending := .nothing

namespace Scan

/-- A character that belongs to no token before it. -/
def begin (tokens : List Token) (c : Char) : Scan :=
  if c = '"' then ⟨tokens, .text []⟩
  else if isBlank c then ⟨tokens, .nothing⟩
  else if isMark c then ⟨.mark c :: tokens, .nothing⟩
  else ⟨tokens, .word [c]⟩

/-- A control character inside a text has to be escaped. -/
def next (s : Scan) (c : Char) : Option Scan :=
  match s.pending with
  | .nothing => some (begin s.tokens c)
  | .word read =>
    if c = '"' ∨ isBlank c ∨ isMark c then some (begin (.word read.reverse :: s.tokens) c)
    else some ⟨s.tokens, .word (c :: read)⟩
  | .text read =>
    if c = '"' then (unescape? "" read.reverse).map fun s' => ⟨.text s' :: s.tokens, .nothing⟩
    else if c.toNat < 32 then none
    else if c = '\\' then some ⟨s.tokens, .escape (c :: read)⟩
    else some ⟨s.tokens, .text (c :: read)⟩
  | .escape read => some ⟨s.tokens, .text (c :: read)⟩

/-- All tokens, in order; a text has to be closed. -/
def finish (s : Scan) : Option (List Token) :=
  match s.pending with
  | .nothing => some s.tokens.reverse
  | .word read => some (.word read.reverse :: s.tokens).reverse
  | .text _ | .escape _ => none

end Scan

def tokens? (s : String) : Option (List Token) := (s.toList.foldlM Scan.next {}).bind Scan.finish

end WordMachine.Json
