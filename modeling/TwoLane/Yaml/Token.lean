import TwoLane.Yaml.Scalar

/-! # YAML tokens

A text is cut into tokens with a cursor that keeps the indentation of the open block collections. A key
shows only at its colon. So every place where a key could stand is remembered, and the colon
inserts the token of the key, and with it the start of a block mapping, before what has been read since. Anchors,
tags, directives and block scalars are not part of this subset.
-/

namespace TwoLane.Yaml

/-- A lexical element. -/
inductive Token where
  /-- The start of a block collection, which the indentation opens. -/
  | blockSequence
  | blockMapping
  /-- The end of a block collection. -/
  | blockEnd
  | openSequence
  | closeSequence
  | openMapping
  | closeMapping
  /-- The mark of an item of a block sequence. -/
  | item
  /-- The comma of a flow collection. -/
  | comma
  | key
  | value
  | quoted (text : String)
  | plain (text : String)
  | documentStart
  | documentEnd
  deriving Repr, DecidableEq, Inhabited

/-- A place where a key may have started. -/
structure KeyPlace where
  /-- How many tokens come before the key. -/
  position : Nat
  line : Nat
  column : Nat
  /-- Whether only a key can stand there. -/
  required : Bool
  deriving Repr, DecidableEq, Inhabited

/-- The state of cutting a text into tokens. -/
structure Cursor where
  rest : List Char
  line : Nat
  column : Nat
  /-- The tokens found so far, the last one first. -/
  found : List Token
  /-- The columns of the open block collections, the innermost one first. -/
  indents : List Nat
  /-- Whether a key may start at the next token. -/
  keyAllowed : Bool
  /-- The last place of a key outside flow collections. -/
  outerPlace : Option KeyPlace
  /-- The last place of a key in each open flow collection, the innermost one first. -/
  flowPlaces : List (Option KeyPlace)
  deriving Inhabited

namespace Cursor

def start (text : List Char) : Cursor where
  rest := text
  line := 0
  column := 0
  found := []
  indents := []
  keyAllowed := true
  outerPlace := none
  flowPlaces := []

def inFlow (cursor : Cursor) : Bool :=
  !cursor.flowPlaces.isEmpty

/-- Move over characters, of which the given ones are left. -/
def moveTo (cursor : Cursor) (rest : List Char) : Cursor :=
  let passed := cursor.rest.take (cursor.rest.length - rest.length)
  let lastLine := (passed.reverse.takeWhile (fun c => !isBreak c)).length
  let breaks := passed.countP isBreak
  { cursor with
    rest := rest
    line := cursor.line + breaks
    column := if breaks = 0 then cursor.column + lastLine else lastLine }

/-- Move over some characters of one line. -/
def advance (cursor : Cursor) (count : Nat) : Cursor :=
  { cursor with rest := cursor.rest.drop count, column := cursor.column + count }

def push (token : Token) (cursor : Cursor) : Cursor :=
  { cursor with found := token :: cursor.found }

def insertAt (position : Nat) (tokens : List Token) (cursor : Cursor) : Cursor :=
  let later := cursor.found.length - position
  { cursor with
    found := cursor.found.take later ++ tokens.reverse ++ cursor.found.drop later }

/-- The place of a key at the present level. -/
def place? (cursor : Cursor) : Option KeyPlace :=
  match cursor.flowPlaces with
  | [] => cursor.outerPlace
  | place :: _ => place

/-- Replace the place of a key at the present level. -/
def setPlace (place : Option KeyPlace) (cursor : Cursor) : Cursor :=
  match cursor.flowPlaces with
  | [] => { cursor with outerPlace := place }
  | _ :: outer => { cursor with flowPlaces := place :: outer }

/-- Give up the place of a key at the present level, which fails where there had to be one. -/
def dropPlace (cursor : Cursor) : Option Cursor :=
  if cursor.place?.any (fun place => place.required) then none else some (cursor.setPlace none)

/-- Remember that a key may start here. -/
def savePlace (cursor : Cursor) : Option Cursor :=
  if cursor.keyAllowed then do
    let cleared ← cursor.dropPlace
    some (cleared.setPlace (some {
      position := cursor.found.length
      line := cursor.line
      column := cursor.column
      required := !cursor.inFlow && cursor.indents.head? == some cursor.column }))
  else some cursor

/-- The longest key that is recognised without its own mark. -/
def longestKey : Nat := 1024

/-- Whether a place is too far back: a key stands on one line with its colon. -/
def isStale (cursor : Cursor) (place : KeyPlace) : Bool :=
  place.line < cursor.line || place.column + longestKey < cursor.column

/-- Forget a place that is too far back, which fails where there had to be a key. -/
def refresh (cursor : Cursor) : Option KeyPlace → Option (Option KeyPlace)
  | none => some none
  | some place =>
      if cursor.isStale place then if place.required then none else some none
      else some (some place)

/-- Forget all places that are too far back. -/
def dropStale (cursor : Cursor) : Option Cursor := do
  let outer ← cursor.refresh cursor.outerPlace
  let flow ← cursor.flowPlaces.mapM cursor.refresh
  some { cursor with outerPlace := outer, flowPlaces := flow }

/-- Open a block collection at a column, unless one is open there; the start goes behind the first tokens. -/
def indentTo (column position : Nat) (opening : Token) (cursor : Cursor) : Cursor :=
  if cursor.inFlow || cursor.indents.head?.any (column ≤ ·) then cursor
  else { cursor.insertAt position [opening] with indents := column :: cursor.indents }

/-- Open a block collection here. -/
def indentHere (opening : Token) (cursor : Cursor) : Cursor :=
  cursor.indentTo cursor.column cursor.found.length opening

/-- Close the block collections that satisfy a condition on their columns, from the innermost one on. -/
def closeWhile (closes : Nat → Bool) (cursor : Cursor) : Cursor :=
  if cursor.inFlow then cursor
  else
    let closed := cursor.indents.takeWhile closes
    { cursor with
      found := List.replicate closed.length .blockEnd ++ cursor.found
      indents := cursor.indents.dropWhile closes }

/-- Skip blanks, comments and line breaks. A byte order mark counts as a blank in the first column. A line
    break outside flow collections makes keys possible, and where a key is possible a tab is no blank. -/
def skipSpace (flow atMargin comment keyAllowed : Bool) : List Char → Bool × List Char
  | [] => (keyAllowed, [])
  | c :: rest =>
      if isBreak c then skipSpace flow true false (keyAllowed || !flow) rest
      else if comment || c == ' ' || (c == '\t' && (flow || !keyAllowed)) ||
          (atMargin && c == '\ufeff') then
        skipSpace flow false comment keyAllowed rest
      else if c == '#' then skipSpace flow false true keyAllowed rest
      else (keyAllowed, c :: rest)

/-- Move to the next token and close the block collections that it is not indented enough for. -/
def toToken (cursor : Cursor) : Option Cursor := do
  let atMargin := cursor.column == 0
  let (keyAllowed, rest) :=
    skipSpace cursor.inFlow atMargin false cursor.keyAllowed cursor.rest
  let moved ← (cursor.moveTo rest).dropStale
  some ({ moved with keyAllowed := keyAllowed }.closeWhile (moved.column < ·))

/-- Read a flow bracket that opens a collection. -/
def openFlow (token : Token) (cursor : Cursor) : Option Cursor := do
  let saved ← cursor.savePlace
  some ({ saved with flowPlaces := none :: saved.flowPlaces, keyAllowed := true }.push
    token |>.advance 1)

/-- Read a flow bracket that closes a collection. -/
def closeFlow (token : Token) (cursor : Cursor) : Option Cursor := do
  let cleared ← cursor.dropPlace
  some ({ cleared with flowPlaces := cleared.flowPlaces.drop 1, keyAllowed := false }.push
    token |>.advance 1)

/-- Read a mark of one character. -/
def mark (token : Token) (keyAllowed : Bool) (cursor : Cursor) : Option Cursor := do
  let cleared ← cursor.dropPlace
  some ({ cleared with keyAllowed := keyAllowed }.push token |>.advance 1)

/-- Read the mark of an item or of a key, which outside flow collections opens one of its own and
    has to stand where a key may start. -/
def blockMark (opening token : Token) (cursor : Cursor) : Option Cursor :=
  if cursor.inFlow then cursor.mark token (token == .item)
  else if cursor.keyAllowed then (cursor.indentHere opening).mark token true
  else none

/-- Read a colon: it makes what started at the remembered place a key, or else belongs to a key with a mark
    of its own. -/
def colon (cursor : Cursor) : Option Cursor :=
  match cursor.place? with
  | some place =>
      let keyed := cursor.insertAt place.position [.key]
      let opened := keyed.indentTo place.column place.position .blockMapping
      some (({ opened with keyAllowed := false }.setPlace none).push .value |>.advance 1)
  | none =>
      if cursor.inFlow then
        some ({ cursor with keyAllowed := false }.push .value |>.advance 1)
      else if cursor.keyAllowed then
        some ((cursor.indentHere .blockMapping).push .value |>.advance 1)
      else none

def documentMark (token : Token) (cursor : Cursor) : Option Cursor := do
  let cleared ← (cursor.closeWhile (fun _ => true)).dropPlace
  some ({ cleared with keyAllowed := false }.push token |>.advance 3)

def quotedScalar (read : List Char → Option (List Char × List Char)) (cursor : Cursor) :
    Option Cursor := do
  let saved ← cursor.savePlace
  let (text, rest) ← read (cursor.rest.drop 1)
  some (({ saved with keyAllowed := false }.push (.quoted (String.ofList text))).moveTo rest)

/-- Read a scalar without quotes. A key may follow if the scalar ends on another line. -/
def plainScalar (cursor : Cursor) : Option Cursor := do
  let saved ← cursor.savePlace
  let indent := (cursor.indents.head?.map (· + 1)).getD 0
  let (text, ending) ← plain cursor.inFlow indent [] cursor.rest
  some (({ saved with keyAllowed := ending.crossed }.push (.plain (String.ofList text))).moveTo
    ending.rest)

/-- Whether a scalar without quotes can start with a character. -/
def startsPlain (flow : Bool) (c : Char) (rest : List Char) : Bool :=
  match c with
  | '-' => rest.head? != some ' ' && rest.head? != some '\t'
  | '?' | ':' => !flow && !spaceFollows rest
  | _ =>
      !isSpace c && !([',', '[', ']', '\x7b', '\x7d', '#', '&', '*', '!', '|', '>', '%', '@',
        '\u0060'].contains c)

/-- Read the token that starts with a character. -/
def token (c : Char) (rest : List Char) (cursor : Cursor) : Option Cursor :=
  if cursor.column = 0 ∧ startsWithMark (c :: rest) then
    cursor.documentMark (if c = '-' then .documentStart else .documentEnd)
  else
    match c with
    | '[' => cursor.openFlow .openSequence
    | '\x7b' => cursor.openFlow .openMapping
    | ']' => cursor.closeFlow .closeSequence
    | '\x7d' => cursor.closeFlow .closeMapping
    | ',' => cursor.mark .comma true
    | '\'' => cursor.quotedScalar (singleQuoted .none)
    | '"' => cursor.quotedScalar (doubleQuoted (rest.length + 1) .none)
    | _ =>
        if c = '-' ∧ spaceFollows rest then cursor.blockMark .blockSequence .item
        else if c = '?' ∧ (cursor.inFlow ∨ spaceFollows rest) then
          cursor.blockMark .blockMapping .key
        else if c = ':' ∧ (cursor.inFlow ∨ spaceFollows rest) then cursor.colon
        else if startsPlain cursor.inFlow c rest then cursor.plainScalar
        else none

/-- Close everything at the end of the text. -/
def finish (cursor : Cursor) : Option Cursor :=
  (cursor.closeWhile (fun _ => true)).dropPlace

/-- Read all tokens; each step takes at least one character. -/
def run : Nat → Cursor → Option Cursor
  | 0, _ => none
  | fuel + 1, cursor => do
      let ready ← cursor.toToken
      match ready.rest with
      | [] => ready.finish
      | c :: rest => do
          let next ← ready.token c rest
          run fuel next

end Cursor

def tokens? (text : List Char) : Option (List Token) :=
  if text.all isAllowed then
    ((Cursor.start (normalizeBreaks text)).run (text.length + 1)).map
      (fun cursor => cursor.found.reverse)
  else none

end TwoLane.Yaml
