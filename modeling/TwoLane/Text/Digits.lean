/-! # Digits in a base

Numbers up to base sixteen, written with the digits 0 to 9 and the letters a to f in either case.
-/

namespace TwoLane.Text

def digitValue? (c : Char) : Option Nat :=
  if '0' ≤ c ∧ c ≤ '9' then some (c.toNat - '0'.toNat)
  else if 'a' ≤ c ∧ c ≤ 'f' then some (c.toNat - 'a'.toNat + 10)
  else if 'A' ≤ c ∧ c ≤ 'F' then some (c.toNat - 'A'.toNat + 10)
  else none

def valueFrom? (base : Nat) : Nat → List Char → Option Nat
  | value, [] => some value
  | value, c :: rest =>
      match digitValue? c with
      | some digit => if digit < base then valueFrom? base (value * base + digit) rest else none
      | none => none

def valueIn? (base : Nat) (digits : List Char) : Option Nat :=
  if digits.isEmpty then none else valueFrom? base 0 digits

/-- The digits of a number in a base up to sixteen, in lower case. -/
def digitsIn (base n : Nat) : List Char :=
  Nat.toDigits base n

end TwoLane.Text
