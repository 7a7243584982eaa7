import TwoLane.Decimal.Style
import TwoLane.Sorted

/-! # Report values

Reports are trees of named fields in a fixed order. Numbers are either counts or amounts, and an amount
that is not finite has no written form and appears as null.
-/

namespace TwoLane

/-- A report value. Fields keep the order in which they are written. -/
inductive Json where
  | null
  | bool (value : Bool)
  | nat (value : Nat)
  | real (value : Float)
  | str (text : String)
  | arr (items : List Json)
  | obj (fields : List (String × Json))
  deriving Inhabited

namespace Json

/-- An absent value is null. -/
def option {α : Type} (form : α → Json) : Option α → Json
  | none => .null
  | some a => form a

def list {α : Type} (form : α → Json) (items : List α) : Json :=
  .arr (items.map form)

def strings (texts : List String) : Json :=
  list .str texts

def nats (counts : List Nat) : Json :=
  list .nat counts

/-- A value under the name of its alternative. -/
def tagged (tag : String) (value : Json) : Json :=
  .obj [(tag, value)]

def hexDigit (n : Nat) : Char :=
  (Nat.digitChar n)

/-- Escape one character of a quoted text. Control characters have short forms or four hexadecimal digits. -/
def escapeChar (c : Char) : List Char :=
  match c with
  | '"' => ['\\', '"']
  | '\\' => ['\\', '\\']
  | '\n' => ['\\', 'n']
  | '\r' => ['\\', 'r']
  | '\t' => ['\\', 't']
  | '\x08' => ['\\', 'b']
  | '\x0c' => ['\\', 'f']
  | c =>
      if c.toNat < 0x20 then
        ['\\', 'u', '0', '0', hexDigit (c.toNat / 16), hexDigit (c.toNat % 16)]
      else [c]

/-- A text between double quotes. -/
def quote (text : String) : List Char :=
  '"' :: text.toList.flatMap escapeChar ++ ['"']

/-- A line break followed by the indentation of a nesting depth. -/
def newline (depth : Nat) : List Char :=
  '\n' :: List.replicate (2 * depth) ' '

/-- Put items on lines of their own between two brackets. -/
def bracket (opening closing : Char) (depth : Nat) (items : List (List Char)) : List Char :=
  if items.isEmpty then [opening, closing]
  else
    let inner := items.map (fun item => newline (depth + 1) ++ item)
    opening :: List.intercalate [','] inner ++ newline depth ++ [closing]

mutual

/-- Write a value with two blanks of indentation per depth. -/
def write (depth : Nat) : Json → List Char
  | .null => ['n', 'u', 'l', 'l']
  | .bool true => ['t', 'r', 'u', 'e']
  | .bool false => ['f', 'a', 'l', 's', 'e']
  | .nat n => Decimal.digitsOf n
  | .real x => if x.isFinite then Decimal.reports.write x else ['n', 'u', 'l', 'l']
  | .str text => quote text
  | .arr items => bracket '[' ']' depth (writeItems (depth + 1) items)
  | .obj fields => bracket '\x7b' '\x7d' depth (writeFields (depth + 1) fields)

def writeItems (depth : Nat) : List Json → List (List Char)
  | [] => []
  | item :: rest => write depth item :: writeItems depth rest

def writeFields (depth : Nat) : List (String × Json) → List (List Char)
  | [] => []
  | (name, value) :: rest =>
      (quote name ++ ':' :: ' ' :: write depth value) :: writeFields depth rest

end

mutual

/-- The same value with the fields of every object in the order of their names. -/
def sortFields : Json → Json
  | .arr items => .arr (sortItems items)
  | .obj fields => .obj (sortEntries fields)
  | value => value

def sortItems : List Json → List Json
  | [] => []
  | item :: rest => sortFields item :: sortItems rest

/-- Named fields in the order of their names. -/
def sortEntries : List (String × Json) → List (String × Json)
  | [] => []
  | (name, value) :: rest => Table.put name (sortFields value) (sortEntries rest)

end

/-- The indented text of a value. -/
def pretty (value : Json) : String :=
  String.ofList (write 0 value)

end Json

end TwoLane
