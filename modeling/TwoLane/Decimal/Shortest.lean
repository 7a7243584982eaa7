import TwoLane.Decimal.Binary

/-! # The shortest decimal that reads back

Every number strictly between the midpoints to its two neighbours rounds to it; the midpoints
themselves do so when the significand is even. Among the decimals in that interval the shortest one
is taken, and of several shortest ones the nearest. How a tie between two equally near ones goes is
the reader's choice.
-/

namespace TwoLane.Decimal

/-- Which of two equally near decimals is taken. -/
inductive Tie where
  /-- The larger one. -/
  | upward
  /-- The one with an even last digit. -/
  | even
  deriving Repr, DecidableEq

/-- A positive decimal number, `digits * 10 ^ exponent`. -/
structure Scaled where
  digits : Nat
  exponent : Int
  deriving Repr, DecidableEq

/-- Write `n * 2 ^ p / 10 ^ k` as a fraction of natural numbers. -/
def gridRatio (n : Nat) (p k : Int) : Nat × Nat :=
  (n * Nat.pow 2 p.toNat * Nat.pow 10 (-k).toNat, Nat.pow 2 (-p).toNat * Nat.pow 10 k.toNat)

/-- A magnitude in quarters of its last binary place, with the ends of the interval that rounds to it. -/
structure Interval where
  lower : Nat
  value : Nat
  upper : Nat
  /-- The common power of two. -/
  exponent : Int
  /-- Whether the ends belong to the interval. -/
  closed : Bool
  deriving Repr

/-- The interval of reals that round to a given magnitude. -/
def Binary.interval (b : Binary) : Interval where
  lower := 4 * b.significand - (if b.closerBelow then 1 else 2)
  value := 4 * b.significand
  upper := 4 * b.significand + 2
  exponent := b.exponent - 2
  closed := b.significand % 2 == 0

def Interval.contains (i : Interval) (digits : Nat) (k : Int) : Bool :=
  let low := gridRatio i.lower i.exponent k
  let high := gridRatio i.upper i.exponent k
  if i.closed then low.1 ≤ digits * low.2 && digits * high.2 ≤ high.1
  else low.1 < digits * low.2 && digits * high.2 < high.1

/-- The best decimal with last place `10 ^ k`, if one of the two around the value reads back. -/
def Interval.onGrid (i : Interval) (tie : Tie) (k : Int) : Option Scaled :=
  let exact := gridRatio i.value i.exponent k
  let below := exact.1 / exact.2
  let twiceRest := 2 * (exact.1 % exact.2)
  let roundsUp :=
    twiceRest > exact.2 ||
      (twiceRest == exact.2 && (tie == Tie.upward || below % 2 == 1))
  match i.contains below k, i.contains (below + 1) k with
  | true, true => some ⟨if roundsUp then below + 1 else below, k⟩
  | true, false => some ⟨below, k⟩
  | false, true => some ⟨below + 1, k⟩
  | false, false => none

/-- An exponent of ten whose power exceeds the magnitude, by at most two places too many. -/
def Interval.topPlace (i : Interval) : Int :=
  ((i.value.log2 + 1 : Int) + i.exponent) * 30103 / 100000 + 1

/-- The shortest decimal that reads back as a given nonzero magnitude. Seventeen digits always
    suffice, so the search from the coarsest grid downwards needs no more than twenty-four grids. -/
def shortest (tie : Tie) (b : Binary) : Scaled :=
  let i := b.interval
  ((List.range 24).findSome? (fun step => i.onGrid tie (i.topPlace - (step : Nat)))).getD ⟨0, 0⟩

end TwoLane.Decimal
