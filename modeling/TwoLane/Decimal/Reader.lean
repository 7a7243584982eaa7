/-! # Reading decimal numbers

The grammar is an optional sign, then one of the words `inf`, `infinity` and `nan` in any letter case, or
digits with at most one point among them and an optional exponent. At least one digit stands before
the exponent, and at least one in it. Nothing else may stand around: no blank, no separator.
-/

namespace TwoLane.Decimal

/-- Whether a character is one of the ten ASCII digits. -/
def isDigit (c : Char) : Bool :=
  '0' ≤ c && c ≤ '9'

def valueOf (digits : List Char) : Nat :=
  digits.foldl (fun n c => 10 * n + (c.toNat - '0'.toNat)) 0

/-- Split off a leading sign; true stands for minus. -/
def splitSign : List Char → Bool × List Char
  | '-' :: rest => (true, rest)
  | '+' :: rest => (false, rest)
  | s => (false, s)

/-- The nonnegative float nearest to `mantissa * 10 ^ exponent`. Far outside the range of the format
    the answer is zero or infinity whatever the digits are, and no power is computed. -/
def nearest (mantissa : Nat) (exponent : Int) : Float :=
  let size : Int := (Nat.toDigits 10 mantissa).length
  if mantissa = 0 then 0
  else if exponent + size > 400 then 1.0 / 0.0
  else if exponent + size < -400 then 0
  else Float.ofScientific mantissa (decide (exponent < 0)) exponent.natAbs

/-- Read the exponent part, which is absent or a marked integer. -/
def readExponent : List Char → Option Int
  | [] => some 0
  | mark :: rest =>
      if mark = 'e' ∨ mark = 'E' then
        let signed := splitSign rest
        if signed.2.isEmpty || !signed.2.all isDigit then none
        else
          let size : Int := valueOf signed.2
          some (if signed.1 then -size else size)
      else none

/-- Split digits with at most one point off the front: whole part, fraction, rest. -/
def splitDigits (s : List Char) : List Char × List Char × List Char :=
  let whole := s.takeWhile isDigit
  match s.dropWhile isDigit with
  | '.' :: rest => (whole, rest.takeWhile isDigit, rest.dropWhile isDigit)
  | rest => (whole, [], rest)

/-- Read an unsigned decimal. -/
def readMagnitude (s : List Char) : Option Float :=
  let parts := splitDigits s
  if parts.1.isEmpty && parts.2.1.isEmpty then none
  else
    (readExponent parts.2.2).map
      (fun e => nearest (valueOf (parts.1 ++ parts.2.1)) (e - parts.2.1.length))

def readUnsigned (s : List Char) : Option Float :=
  let word := String.ofList (s.map Char.toLower)
  if word = "inf" ∨ word = "infinity" then some (1.0 / 0.0)
  else if word = "nan" then some (0.0 / 0.0)
  else readMagnitude s

def readFloat (s : List Char) : Option Float :=
  let signed := splitSign s
  (readUnsigned signed.2).map (fun x => if signed.1 then -x else x)

end TwoLane.Decimal
