import TwoLane.Json.Basic
import TwoLane.Decimal.Reader
import TwoLane.Text.Blank

/-! # Numbers

The values of memory cells and gate parameters are complex numbers with floating-point parts. A number
has one written form in instruction text, and reading accepts that form and a few more.
-/

namespace TwoLane

/-- A complex number. -/
structure Number where
  re : Float
  im : Float
  deriving Inhabited

namespace Number

/-- Two numbers are equal when their parts are, as floating-point numbers. -/
instance : BEq Number where
  beq a b := a.re == b.re && a.im == b.im

def ofReal (x : Float) : Number :=
  ⟨x, 0⟩

/-- The number of a truth value. -/
def ofBool (b : Bool) : Number :=
  ofReal (if b then 1 else 0)

instance : Add Number where
  add a b := ⟨a.re + b.re, a.im + b.im⟩

instance : Sub Number where
  sub a b := ⟨a.re - b.re, a.im - b.im⟩

instance : Mul Number where
  mul a b := ⟨a.re * b.re - a.im * b.im, a.re * b.im + a.im * b.re⟩

instance : Neg Number where
  neg a := ⟨-a.re, -a.im⟩

instance : Div Number where
  div a b :=
    let square := b.re * b.re + b.im * b.im
    ⟨(a.re * b.re + a.im * b.im) / square, (a.im * b.re - a.re * b.im) / square⟩

/-- Whether both parts are zero, of either sign. -/
def isZero (a : Number) : Bool :=
  a.re == 0 && a.im == 0

/-- The form of a number in instruction text: a real or imaginary part that is zero is left out. -/
def text (a : Number) : String :=
  if a.im == 0 then Decimal.amountText a.re
  else if a.re == 0 then Decimal.amountText a.im ++ "i"
  else if a.im < 0 then Decimal.amountText a.re ++ "-" ++ Decimal.amountText (-a.im) ++ "i"
  else Decimal.amountText a.re ++ "+" ++ Decimal.amountText a.im ++ "i"

/-- Whether a sign at this position can separate a real part from an imaginary one: it is not the first
    character, and no exponent mark stands before it. -/
def isSeparator (body : List Char) (i : Nat) : Bool :=
  match body[i]?, i with
  | some c, before + 1 =>
      (c == '+' || c == '-') && body[before]? != some 'e' && body[before]? != some 'E'
  | _, _ => false

/-- Where the imaginary part of a sum starts: at the last separator. -/
def separator? (body : List Char) : Option Nat :=
  ((List.range body.length).filter (isSeparator body)).getLast?

/-- Drop a final character. -/
def dropLast? (c : Char) (s : List Char) : Option (List Char) :=
  if s.getLast? = some c then some s.dropLast else none

/-- Read a number without blanks around it: a real number, an imaginary one marked by a final `i`, or the
    signed sum of both. -/
def readTrimmed (s : List Char) : Option Number :=
  match Decimal.readFloat s with
  | some re => some ⟨re, 0⟩
  | none => do
      let body ← dropLast? 'i' s
      match Decimal.readFloat body with
      | some im => some ⟨0, im⟩
      | none => do
          let i ← separator? body
          let re ← Decimal.readFloat (body.take i)
          let im ← Decimal.readFloat (body.drop i)
          some ⟨re, im⟩

/-- Read a number, blanks around it aside. -/
def read (text : String) : Option Number :=
  readTrimmed (Text.trim text.toList)

/-- The report form of a number is the pair of its parts. -/
def toJson (a : Number) : Json :=
  .arr [.real a.re, .real a.im]

end Number

end TwoLane
