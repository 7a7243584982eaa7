import TwoLane.Decimal.Reader
import TwoLane.Document.Basic
import TwoLane.Text.Digits

/-! # Records in documents

A record is an object with known field names. Where positions count as well, it may also be an array of the
fields in their order. Unknown fields of an object are skipped, whatever they hold. A known field may not
occur twice, every field name has to be a text, and an array may end early but not go on. A scalar without
quotes is a text wherever a text is wanted, and nothing at all stands for an empty list or record.
-/

namespace TwoLane.Document

/-- The value of a field that occurs at most once, or nothing if it occurs twice. -/
def single? (fields : List (Option String × Document)) (name : String) :
    Option (Option Document) :=
  match fields.filter (fun field => field.1 == some name) with
  | [] => some none
  | [field] => some (some field.2)
  | _ => none

/-- The values of the named fields of a record, absent ones included. -/
def record? (positional : Bool) (names : List String) :
    Document → Option (List (Option Document))
  | .object fields =>
      if fields.all (fun field => field.1.isSome) then names.mapM (single? fields) else none
  | .array items =>
      if positional && items.length ≤ names.length then
        some (items.map some ++ List.replicate (names.length - items.length) none)
      else none
  | .plain "" => some (List.replicate names.length none)
  | _ => none

def text? : Document → Option String
  | .text content => content
  | .plain content => some content
  | _ => none

/-- A value that fits into sixty-four bits. -/
def word? (value : Nat) : Option Nat :=
  if value < UInt64.size then some value else none

/-- A number in one of the bases that a mark behind a leading zero announces. -/
def marked? : List Char → Option Nat
  | '0' :: 'x' :: digits => Text.valueIn? 16 digits
  | '0' :: 'o' :: digits => Text.valueIn? 8 digits
  | '0' :: 'b' :: digits => Text.valueIn? 2 digits
  | _ => none

/-- A decimal number without superfluous zeros. -/
def unmarked? : List Char → Option Nat
  | '0' :: _ :: _ => none
  | digits => Text.valueIn? 10 digits

/-- The natural number that a scalar without quotes is, with or without a plus sign. -/
def plainCount? (content : List Char) : Option Nat :=
  let digits :=
    match content with
    | '+' :: rest => rest
    | _ => content
  match (marked? digits).bind word? with
  | some value => some value
  | none => (unmarked? digits).bind word?

/-- A natural number below two to the power of sixty-four, written without a minus sign, a fraction or an
    exponent. -/
def count? : Document → Option Nat
  | .number digits =>
      if digits.all Decimal.isDigit then word? (Decimal.valueOf digits) else none
  | .plain content => plainCount? content.toList
  | _ => none

/-- Whether a scalar without quotes stands for nothing. -/
def isNothing (content : String) : Bool :=
  ["", "~", "null", "Null", "NULL"].contains content

def optional? {α : Type} (interpret : Document → Option α) : Document → Option (Option α)
  | .null => some none
  | .plain content =>
      if isNothing content then some none else (interpret (.plain content)).map some
  | document => (interpret document).map some

def orDefault {α : Type} (fallback : α) (interpret : Document → Option α) :
    Option Document → Option α
  | none => some fallback
  | some document => interpret document

def texts? : Document → Option (List String)
  | .array items => items.mapM text?
  | .plain "" => some []
  | _ => none

end TwoLane.Document
