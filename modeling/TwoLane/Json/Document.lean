import TwoLane.Decimal.Reader
import TwoLane.Document.Basic
import TwoLane.Text.Digits

/-! # Reading JSON

A text is cut into tokens, and the tokens form one document. Numbers stay text, because only the place
where one is used says which numbers fit there. An escape may name half of a surrogate pair; such a text has no
characters, which matters only where the text is used.
-/

namespace TwoLane

namespace Json

/-- One element of a quoted text: a character, or a sixteen-bit unit written as an escape. -/
inductive Unit16 where
  | plain (c : Char)
  | escaped (unit : Nat)

/-- A lexical element. -/
inductive Token where
  | punctuation (c : Char)
  | word (letters : List Char)
  | number (digits : List Char)
  | text (content : Option String)

/-- The unit of four hexadecimal digits. -/
def hexUnit? (a b c d : Char) : Option Nat :=
  Text.valueIn? 16 [a, b, c, d]

def shortEscape? : Char → Option Char
  | '"' => some '"'
  | '\\' => some '\\'
  | '/' => some '/'
  | 'b' => some '\x08'
  | 'f' => some '\x0c'
  | 'n' => some '\n'
  | 'r' => some '\r'
  | 't' => some '\t'
  | _ => none

/-- The elements of a quoted text up to its closing quote, and what follows. -/
def units? : List Char → Option (List Unit16 × List Char)
  | [] => none
  | '"' :: rest => some ([], rest)
  | '\\' :: 'u' :: a :: b :: c :: d :: rest => do
      let unit ← hexUnit? a b c d
      let (more, after) ← units? rest
      some (.escaped unit :: more, after)
  | '\\' :: c :: rest => do
      let c ← shortEscape? c
      let (more, after) ← units? rest
      some (.plain c :: more, after)
  | c :: rest =>
      if c.toNat < 0x20 then none
      else do
        let (more, after) ← units? rest
        some (.plain c :: more, after)

/-- Whether a unit is the first half of a pair. -/
def isHigh (unit : Nat) : Bool :=
  0xD800 ≤ unit && unit < 0xDC00

/-- Whether a unit is the second half of a pair. -/
def isLow (unit : Nat) : Bool :=
  0xDC00 ≤ unit && unit < 0xE000

/-- The characters of the elements of a text; halves of pairs have to stand together. -/
def characters? : List Unit16 → Option (List Char)
  | [] => some []
  | .plain c :: rest => (characters? rest).map (c :: ·)
  | .escaped high :: .escaped low :: rest =>
      if isHigh high then
        if isLow low then
          (characters? rest).map
            (Char.ofNat (0x10000 + (high - 0xD800) * 0x400 + (low - 0xDC00)) :: ·)
        else none
      else if isLow high then none
      else (characters? (.escaped low :: rest)).map (Char.ofNat high :: ·)
  | .escaped unit :: rest =>
      if isHigh unit || isLow unit then none
      else (characters? rest).map (Char.ofNat unit :: ·)

/-- Split off a part that a mark opens and at least one digit continues; no mark, no part. -/
def optionalDigits? (opens : Char → Bool) (signed : Bool) (s : List Char) :
    Option (List Char × List Char) :=
  match s with
  | c :: rest =>
      if opens c then
        let (sign, body) :=
          match rest with
          | '+' :: body => if signed then (['+'], body) else ([], rest)
          | '-' :: body => if signed then (['-'], body) else ([], rest)
          | _ => ([], rest)
        let digits := body.takeWhile Decimal.isDigit
        if digits.isEmpty then none
        else some (c :: sign ++ digits, body.dropWhile Decimal.isDigit)
      else some ([], s)
  | [] => some ([], [])

/-- Split a number off the front: an integer without superfluous zeros, a fraction, an exponent. -/
def number? (s : List Char) : Option (List Char × List Char) := do
  let (sign, body) :=
    match s with
    | '-' :: rest => (['-'], rest)
    | _ => ([], s)
  let (whole, rest) :=
    match body with
    | '0' :: rest => (['0'], rest)
    | _ => (body.takeWhile Decimal.isDigit, body.dropWhile Decimal.isDigit)
  if whole.isEmpty then none
  else do
    let (fraction, rest) ← optionalDigits? (fun c => c == '.') false rest
    let (exponent, rest) ← optionalDigits? (fun c => c == 'e' || c == 'E') true rest
    some (sign ++ whole ++ fraction ++ exponent, rest)

/-- Whether a character is insignificant between tokens. -/
def isSpace (c : Char) : Bool :=
  c == ' ' || c == '\n' || c == '\t' || c == '\r'

/-- The first token of a text that does not start with a space, and what follows. -/
def token? (c : Char) (rest : List Char) : Option (Token × List Char) :=
  if c = '"' then do
    let (parts, after) ← units? rest
    some (.text ((characters? parts).map String.ofList), after)
  else if c = '-' ∨ Decimal.isDigit c then do
    let (digits, after) ← number? (c :: rest)
    some (.number digits, after)
  else if c.isLower then
    some (.word (c :: rest.takeWhile Char.isLower), rest.dropWhile Char.isLower)
  else if ['[', ']', '\x7b', '\x7d', ',', ':'].contains c then some (.punctuation c, rest)
  else none

/-- Cut a text into tokens; each step takes at least one character. -/
def tokensWithin : Nat → List Char → Option (List Token)
  | _, [] => some []
  | 0, _ :: _ => none
  | fuel + 1, c :: rest =>
      if isSpace c then tokensWithin fuel rest
      else do
        let (token, after) ← token? c rest
        let more ← tokensWithin fuel after
        some (token :: more)

/-- Cut a text into tokens. -/
def tokens? (s : List Char) : Option (List Token) :=
  tokensWithin s.length s

def ofWord? (letters : List Char) : Option Document :=
  match String.ofList letters with
  | "null" => some .null
  | "true" => some (.bool true)
  | "false" => some (.bool false)
  | _ => none

mutual

/-- Read a value off the front; each call takes at least one token. -/
def value? : Nat → List Token → Option (Document × List Token)
  | 0, _ => none
  | _, [] => none
  | fuel + 1, token :: rest =>
      match token with
      | .word letters => (ofWord? letters).map (fun v => (v, rest))
      | .number digits => some (.number digits, rest)
      | .text content => some (.text content, rest)
      | .punctuation '[' =>
          match rest with
          | .punctuation ']' :: after => some (.array [], after)
          | _ => (items? fuel rest).map (fun r => (.array r.1, r.2))
      | .punctuation '\x7b' =>
          match rest with
          | .punctuation '\x7d' :: after => some (.object [], after)
          | _ => (fields? fuel rest).map (fun r => (.object r.1, r.2))
      | .punctuation _ => none

/-- Read the items of an array up to its closing bracket. -/
def items? : Nat → List Token → Option (List Document × List Token)
  | 0, _ => none
  | fuel + 1, tokens => do
      let (item, rest) ← value? fuel tokens
      match rest with
      | .punctuation ',' :: after => do
          let (more, after) ← items? fuel after
          some (item :: more, after)
      | .punctuation ']' :: after => some ([item], after)
      | _ => none

/-- Read the fields of an object up to its closing bracket. -/
def fields? : Nat → List Token → Option (List (Option String × Document) × List Token)
  | 0, _ => none
  | fuel + 1, tokens =>
      match tokens with
      | .text key :: .punctuation ':' :: rest => do
          let (value, rest) ← value? fuel rest
          match rest with
          | .punctuation ',' :: after => do
              let (more, after) ← fields? fuel after
              some ((key, value) :: more, after)
          | .punctuation '\x7d' :: after => some ([(key, value)], after)
          | _ => none
      | _ => none

end

/-- Read a text that holds one document and nothing else. -/
def read? (text : String) : Option Document := do
  let tokens ← tokens? text.toList
  match ← value? (2 * tokens.length + 1) tokens with
  | (document, []) => some document
  | _ => none

end Json

end TwoLane
