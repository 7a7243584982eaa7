/-! # Blanks and lines

A blank is a character with the White_Space property of Unicode. Trimming removes blanks at both
ends, and a text falls into lines at line feeds.
-/

namespace TwoLane.Text

/-- Code points with the White_Space property. -/
def isBlank (c : Char) : Bool :=
  let n := c.toNat
  (9 ≤ n && n ≤ 13) || n == 0x20 || n == 0x85 || n == 0xA0 || n == 0x1680 ||
    (0x2000 ≤ n && n ≤ 0x200A) || n == 0x2028 || n == 0x2029 || n == 0x202F || n == 0x205F ||
    n == 0x3000

def trimStart (s : List Char) : List Char :=
  s.dropWhile isBlank

def trimEnd (s : List Char) : List Char :=
  (s.reverse.dropWhile isBlank).reverse

/-- Remove the blanks at both ends. -/
def trim (s : List Char) : List Char :=
  trimEnd (trimStart s)

/-- Split at every occurrence of a separator; there is always at least one piece. -/
def splitAt (separator : Char) : List Char → List (List Char)
  | [] => [[]]
  | c :: rest =>
      if c = separator then [] :: splitAt separator rest
      else
        match splitAt separator rest with
        | [] => [[c]]
        | piece :: pieces => (c :: piece) :: pieces

/-- Drop a carriage return at the end of a line that a line feed closed. -/
def dropReturn (line : List Char) : List Char :=
  match line.reverse with
  | '\r' :: rest => rest.reverse
  | _ => line

/-- Close each piece but the last one, which is a line only if it holds something. -/
def closeLines : List (List Char) → List String
  | [] => []
  | [last] => if last.isEmpty then [] else [String.ofList last]
  | piece :: rest => String.ofList (dropReturn piece) :: closeLines rest

/-- The lines of a text: a line feed closes a line, together with one carriage return before it, and
    an empty rest behind the last line feed is no line. -/
def lines (text : String) : List String :=
  closeLines (splitAt '\n' text.toList)

/-- Split a text at the first occurrence of a character, which is in neither part. -/
def splitOnce (separator : Char) : List Char → Option (List Char × List Char)
  | [] => none
  | c :: rest =>
      if c = separator then some ([], rest)
      else (splitOnce separator rest).map (fun parts => (c :: parts.1, parts.2))

/-- Pad a text with blanks on the right up to a width, counted in characters. -/
def padRight (width : Nat) (text : String) : String :=
  text ++ String.ofList (List.replicate (width - text.length) ' ')

/-- Pad a text with blanks on the left up to a width, counted in characters. -/
def padLeft (width : Nat) (text : String) : String :=
  String.ofList (List.replicate (width - text.length) ' ') ++ text

end TwoLane.Text
