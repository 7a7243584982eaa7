import TwoLane.Text.Digits
import TwoLane.Text.Extending
import TwoLane.Text.Range
import TwoLane.Text.Unprintable

/-! # Quoted texts

A quoted text shows every character. Quotes and backslashes are escaped, and so are characters that have no shape
of their own or would be shown as a part of the character before them.
-/

namespace TwoLane.Text

/-- Whether a character stands for itself between quotes. -/
def isShown (c : Char) : Bool :=
  !inRanges extendingRanges c && !inRanges unprintableRanges c

/-- A character between double quotes. -/
def quoteChar (c : Char) : List Char :=
  match c with
  | '\x00' => ['\\', '0']
  | '\t' => ['\\', 't']
  | '\n' => ['\\', 'n']
  | '\r' => ['\\', 'r']
  | '"' => ['\\', '"']
  | '\\' => ['\\', '\\']
  | c =>
      if isShown c then [c]
      else ['\\', 'u', '\x7b'] ++ digitsIn 16 c.toNat ++ ['\x7d']

/-- A text between double quotes. -/
def quoted (text : String) : String :=
  String.ofList ('"' :: text.toList.flatMap quoteChar ++ ['"'])

/-- Items between two brackets. -/
def bracketed (opening closing : String) (items : List String) : String :=
  opening ++ String.intercalate ", " items ++ closing

def listed (items : List String) : String :=
  bracketed "[" "]" items

/-- A set of items between braces. -/
def grouped (items : List String) : String :=
  bracketed "\x7b" "\x7d" items

end TwoLane.Text
