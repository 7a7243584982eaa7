/-! # Finite binary floating-point numbers as integers

A finite `Float` is a sign and a product of a natural number with a power of two. All decimal text is
computed from these integers, so no rounding happens on the way.
-/

namespace TwoLane.Decimal

/-- The parts of a finite floating-point number, whose magnitude is `significand * 2 ^ exponent`. -/
structure Binary where
  negative : Bool
  significand : Nat
  exponent : Int
  /-- Whether the next smaller number of the format is only half as far away as the next larger one. -/
  closerBelow : Bool
  deriving Repr, DecidableEq

def signBit (x : Float) : Bool :=
  x.toBits.toNat.testBit 63

/-- The parts of a float, or nothing for infinities and for values that are no number. -/
def Binary.ofFloat? (x : Float) : Option Binary :=
  let bits : Nat := x.toBits.toNat
  let leading : Nat := 1 <<< 52
  let fraction : Nat := bits % leading
  let biased : Nat := bits / leading % 1 <<< 11
  if biased = 2047 then none
  else if biased = 0 then some ⟨signBit x, fraction, -1074, false⟩
  else some ⟨signBit x, leading + fraction, (biased : Int) - 1075, fraction == 0 && 1 < biased⟩

end TwoLane.Decimal
