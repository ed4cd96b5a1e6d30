/-! Numbers written in digits. -/
namespace WordMachine.Digits

/-- The value of a digit of `radix`, in either case. -/
def digit? (radix : Nat) (c : Char) : Option Nat :=
  let value? :=
    if '0' ≤ c ∧ c ≤ '9' then some (c.toNat - 48)
    else if 'a' ≤ c ∧ c ≤ 'f' then some (c.toNat - 87)
    else if 'A' ≤ c ∧ c ≤ 'F' then some (c.toNat - 55)
    else none
  value?.filter (· < radix)

/-- The number that digits of `radix` write; no digits write none. -/
def value? (radix : Nat) (digits : List Char) : Option Nat :=
  if digits.isEmpty then none
  else digits.foldlM (fun value c => (digit? radix c).map (radix * value + ·)) 0

end WordMachine.Digits
