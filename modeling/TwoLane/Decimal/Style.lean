import TwoLane.Decimal.Shortest

/-! # Written forms of floating-point numbers

A style fixes what the shortest digits leave open: when an exponent is written, whether a whole
number keeps a fraction, and how ties go.
-/

namespace TwoLane.Decimal

/-- How a finite number is written. -/
structure Style where
  tie : Tie
  /-- The decimal exponents, first and one past the last, written without an exponent;
      every exponent when absent. -/
  positional : Option (Int × Int)
  /-- Whether a whole number written without an exponent ends in a zero fraction. -/
  zeroFraction : Bool

/-- Amounts stand in instruction text with all their places and no exponent. -/
def amounts : Style := ⟨.upward, none, false⟩

/-- Machine-readable reports write an exponent with its sign from 1e16 on and below 1e-5, and mark whole
    numbers by a zero fraction. -/
def reports : Style := ⟨.even, some (-5, 16), true⟩

/-- The decimal digits of a natural number. -/
def digitsOf (n : Nat) : List Char :=
  Nat.toDigits 10 n

/-- Write a positive decimal without an exponent. -/
def Style.positionally (style : Style) (d : Scaled) : List Char :=
  let digits := digitsOf d.digits
  match d.exponent with
  | .ofNat zeros =>
      digits ++ List.replicate zeros '0' ++ (if style.zeroFraction then ['.', '0'] else [])
  | .negSucc n =>
      let places := n + 1
      if places < digits.length then
        digits.take (digits.length - places) ++ '.' :: digits.drop (digits.length - places)
      else '0' :: '.' :: List.replicate (places - digits.length) '0' ++ digits

/-- Write a positive decimal with one digit before the point and an exponent. -/
def Style.scientifically (d : Scaled) (exponent : Int) : List Char :=
  let mantissa :=
    match digitsOf d.digits with
    | [] => []
    | [lead] => [lead]
    | lead :: rest => lead :: '.' :: rest
  let sign := if exponent < 0 then '-' else '+'
  mantissa ++ 'e' :: sign :: digitsOf exponent.natAbs

/-- Write the magnitude of a finite number. -/
def Style.magnitude (style : Style) (b : Binary) : List Char :=
  if b.significand = 0 then '0' :: (if style.zeroFraction then ['.', '0'] else [])
  else
    let d := shortest style.tie b
    let exponent := d.exponent + (digitsOf d.digits).length - 1
    match style.positional with
    | none => style.positionally d
    | some (first, beyond) =>
        if first ≤ exponent ∧ exponent < beyond then style.positionally d
        else Style.scientifically d exponent

/-- The written form of a float, with the words of the style's users for values that are not finite. -/
def Style.write (style : Style) (x : Float) : List Char :=
  match Binary.ofFloat? x with
  | some b => (if b.negative then ['-'] else []) ++ style.magnitude b
  | none =>
      if x.isNaN then ['N', 'a', 'N']
      else if signBit x then ['-', 'i', 'n', 'f']
      else ['i', 'n', 'f']

def amountText (x : Float) : String :=
  String.ofList (amounts.write x)

end TwoLane.Decimal
