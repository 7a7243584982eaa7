import TwoLane.Text.Digits

/-! # YAML scalars

A scalar stands between single quotes, between double quotes, or without quotes. It may go on over several
lines: white space that holds line breaks is folded, so that one break becomes a blank and of several breaks the
first one is dropped. Line breaks are taken to be normalised.
-/

namespace TwoLane.Yaml

/-- Whether a character ends a line. Only a line feed is folded. -/
def isBreak (c : Char) : Bool :=
  c == '\n' || c == '\u2028' || c == '\u2029'

/-- Whether a character is a blank or ends a line. -/
def isSpace (c : Char) : Bool :=
  c == ' ' || c == '\t' || isBreak c

/-- Whether a text is at its end or goes on with white space. -/
def spaceFollows : List Char → Bool
  | [] => true
  | c :: _ => isSpace c

/-- Whether a line starts with the mark of a new document or of the end of one. -/
def startsWithMark : List Char → Bool
  | '-' :: '-' :: '-' :: rest => spaceFollows rest
  | '.' :: '.' :: '.' :: rest => spaceFollows rest
  | _ => false

/-- Replace every way to end a line by a line feed, except for the two separators that have their own
    meaning. -/
def normalizeBreaks : List Char → List Char
  | [] => []
  | '\r' :: '\n' :: rest => '\n' :: normalizeBreaks rest
  | '\r' :: rest => '\n' :: normalizeBreaks rest
  | '\u0085' :: rest => '\n' :: normalizeBreaks rest
  | c :: rest => c :: normalizeBreaks rest

/-- The characters that a text may hold. -/
def isAllowed (c : Char) : Bool :=
  let n := c.toNat
  n == 0x09 || n == 0x0A || n == 0x0D || (0x20 ≤ n && n ≤ 0x7E) || n == 0x85 ||
    (0xA0 ≤ n && n ≤ 0xFFFD) || 0x10000 ≤ n

/-- What the line breaks of a gap between two words become. -/
def foldBreaks : List Char → List Char
  | ['\n'] => [' ']
  | '\n' :: more => more
  | breaks => breaks

/-- White space between two words of a scalar. -/
inductive Gap where
  /-- Some space, the last character first. -/
  | space (reversed : List Char)
  /-- Space behind a line break that an escape took away. -/
  | joined (reversed : List Char)

namespace Gap

def none : Gap := .space []

def push (c : Char) : Gap → Gap
  | .space reversed => .space (c :: reversed)
  | .joined reversed => .joined (c :: reversed)

def text : Gap → List Char
  | .space reversed =>
      let breaks := reversed.reverse.filter isBreak
      if breaks.isEmpty then reversed.reverse else foldBreaks breaks
  | .joined reversed => reversed.reverse.filter isBreak

end Gap

/-- Put text in front of what a reader has found so far. -/
def prepend {α : Type} (front : List Char) (found : Option (List Char × α)) :
    Option (List Char × α) :=
  found.map (fun result => (front ++ result.1, result.2))

/-- Read a text between single quotes, behind the first one. A quote in the text is written twice. -/
def singleQuoted (gap : Gap) : List Char → Option (List Char × List Char)
  | [] => .none
  | c :: rest =>
      if isSpace c then
        if isBreak c && startsWithMark rest then .none else singleQuoted (gap.push c) rest
      else if c = '\'' then
        match rest with
        | '\'' :: more => prepend (gap.text ++ ['\'']) (singleQuoted .none more)
        | _ => some (gap.text, rest)
      else prepend (gap.text ++ [c]) (singleQuoted .none rest)

/-- The character of a short escape between double quotes. -/
def shortEscape? : Char → Option Char
  | '0' => some '\x00'
  | 'a' => some '\x07'
  | 'b' => some '\x08'
  | 't' | '\t' => some '\t'
  | 'n' => some '\n'
  | 'v' => some '\x0b'
  | 'f' => some '\x0c'
  | 'r' => some '\r'
  | 'e' => some '\x1b'
  | ' ' => some ' '
  | '"' => some '"'
  | '/' => some '/'
  | '\\' => some '\\'
  | 'N' => some '\u0085'
  | '_' => some '\u00a0'
  | 'L' => some '\u2028'
  | 'P' => some '\u2029'
  | _ => none

/-- The character of a number in hexadecimal digits, if there is one. -/
def numbered? (digits : List Char) : Option Char := do
  let value ← Text.valueIn? 16 digits
  if value < 0xD800 ∨ (0xE000 ≤ value ∧ value ≤ 0x10FFFF) then some (Char.ofNat value) else none

/-- How many hexadecimal digits follow the letter of an escape. -/
def digitCount? : Char → Option Nat
  | 'x' => some 2
  | 'u' => some 4
  | 'U' => some 8
  | _ => none

/-- Read the rest of an escape behind the backslash. -/
def escape? : List Char → Option (Char × List Char)
  | [] => none
  | c :: rest =>
      match digitCount? c with
      | some count =>
          if rest.length < count then none
          else (numbered? (rest.take count)).map (fun found => (found, rest.drop count))
      | none => (shortEscape? c).map (fun found => (found, rest))

/-- Read a text between double quotes, behind the first one; the bound is on the number of characters. -/
def doubleQuoted : Nat → Gap → List Char → Option (List Char × List Char)
  | 0, _, _ | _, _, [] => .none
  | fuel + 1, gap, c :: rest =>
      if isSpace c then
        if isBreak c && startsWithMark rest then .none else doubleQuoted fuel (gap.push c) rest
      else if c = '"' then some (gap.text, rest)
      else if c = '\\' then
        match rest with
        | [] => .none
        | d :: more =>
            if isBreak d then
              if startsWithMark more then .none
              else prepend gap.text (doubleQuoted fuel (.joined []) more)
            else
              match escape? rest with
              | some (found, after) =>
                  prepend (gap.text ++ [found]) (doubleQuoted fuel .none after)
              | .none => .none
      else prepend (gap.text ++ [c]) (doubleQuoted fuel .none rest)

/-- The blanks behind the last line break of a gap. -/
def indentationOf (reversed : List Char) : Nat :=
  (reversed.takeWhile (fun c => !isBreak c)).length

/-- How a scalar without quotes ends. -/
structure PlainEnd where
  /-- Whether white space behind the scalar goes on over a line break. -/
  crossed : Bool
  rest : List Char

/-- Whether a word of a scalar without quotes cannot start here: at a comment, at the mark of a document, or
    on a line that is not indented far enough. -/
def stopsBefore (flow : Bool) (indent : Nat) (reversed : List Char) (s : List Char) : Bool :=
  match reversed with
  | [] => false
  | last :: _ =>
      s.head? == some '#' || (isBreak last && startsWithMark s) ||
        (!flow && reversed.any isBreak && indentationOf reversed < indent)

/-- Whether a colon in a flow collection has a character behind it that makes it unclear. -/
def isUnclear (c : Char) (rest : List Char) : Bool :=
  c == ':' && rest.head?.any ([',', '?', '[', ']', '\x7b', '\x7d'].contains ·)

/-- Whether a character ends a scalar without quotes. -/
def endsPlain (flow : Bool) (c : Char) (rest : List Char) : Bool :=
  (c == ':' && spaceFollows rest) || (flow && [',', '[', ']', '\x7b', '\x7d'].contains c)

/-- Read a scalar without quotes, of which the given gap has been read last. White space behind the scalar
    belongs to it but not to its text. Tabs do not indent. -/
def plain (flow : Bool) (indent : Nat) (reversed : List Char) :
    List Char → Option (List Char × PlainEnd)
  | [] => some ([], ⟨reversed.any isBreak, []⟩)
  | c :: rest =>
      if isSpace c then
        if c == '\t' && reversed.any isBreak && indentationOf reversed < indent then .none
        else plain flow indent (c :: reversed) rest
      else if stopsBefore flow indent reversed (c :: rest) then
        some ([], ⟨reversed.any isBreak, c :: rest⟩)
      else if flow && isUnclear c rest then .none
      else if endsPlain flow c rest then some ([], ⟨reversed.any isBreak, c :: rest⟩)
      else prepend ((Gap.space reversed).text ++ [c]) (plain flow indent [] rest)

end TwoLane.Yaml
