import TwoLane.Document.Basic
import TwoLane.Yaml.Token

/-! # Reading YAML

The tokens of a text form one document. Where a node is left out, an empty scalar without quotes stands. A text
without any token is such a scalar as well.
-/

namespace TwoLane.Yaml

def emptyNode : Document := .plain ""

def keyName : Document → Option String
  | .plain content => some content
  | .text content => content
  | _ => none

/-- Whether one of the given tokens comes next. -/
def nextIn (stops : List Token) : List Token → Bool
  | [] => false
  | token :: _ => stops.contains token

mutual

/-- Read a node. Block collections may be forbidden, and a block sequence may be allowed to do without an
    indentation of its own. -/
def node? : Nat → Bool → Bool → List Token → Option (Document × List Token)
  | 0, _, _, _ | _, _, _, [] => none
  | fuel + 1, block, indentless, token :: rest =>
      match token with
      | .quoted text => some (.text (some text), rest)
      | .plain text => some (.plain text, rest)
      | .openSequence => (flowItems? fuel true rest).map (fun r => (.array r.1, r.2))
      | .openMapping => (flowFields? fuel true rest).map (fun r => (.object r.1, r.2))
      | .blockSequence =>
          if block then (blockItems? fuel rest).map (fun r => (.array r.1, r.2)) else none
      | .blockMapping =>
          if block then (blockFields? fuel rest).map (fun r => (.object r.1, r.2)) else none
      | .item =>
          if indentless then
            (indentlessItems? fuel (token :: rest)).map (fun r => (.array r.1, r.2))
          else none
      | _ => none

/-- Read a node that is left out if one of the given tokens comes next. -/
def nodeOrEmpty? : Nat → List Token → Bool → Bool → List Token → Option (Document × List Token)
  | 0, _, _, _, _ => none
  | fuel + 1, stops, block, indentless, tokens =>
      if nextIn stops tokens then some (emptyNode, tokens) else node? fuel block indentless tokens

/-- Read the value behind a key, if there is one. -/
def valueOrEmpty? : Nat → List Token → Bool → List Token → Option (Document × List Token)
  | 0, _, _, _ => none
  | fuel + 1, stops, block, tokens =>
      match tokens with
      | .value :: rest => nodeOrEmpty? fuel stops block block rest
      | _ => some (emptyNode, tokens)

def blockItems? : Nat → List Token → Option (List Document × List Token)
  | 0, _ => none
  | fuel + 1, tokens =>
      match tokens with
      | .item :: rest => do
          let (item, rest) ← nodeOrEmpty? fuel [.item, .blockEnd] true false rest
          let (more, rest) ← blockItems? fuel rest
          some (item :: more, rest)
      | .blockEnd :: rest => some ([], rest)
      | _ => none

/-- Read the items of a block sequence that the next key or the end of the mapping around it ends. -/
def indentlessItems? : Nat → List Token → Option (List Document × List Token)
  | 0, _ => none
  | fuel + 1, tokens =>
      match tokens with
      | .item :: rest => do
          let (item, rest) ← nodeOrEmpty? fuel [.item, .key, .value, .blockEnd] true false rest
          let (more, rest) ← indentlessItems? fuel rest
          some (item :: more, rest)
      | _ => some ([], tokens)

def blockFields? : Nat → List Token → Option (List (Option String × Document) × List Token)
  | 0, _ => none
  | fuel + 1, tokens =>
      match tokens with
      | .key :: rest => do
          let stops := [.key, .value, .blockEnd]
          let (key, rest) ← nodeOrEmpty? fuel stops true true rest
          let (value, rest) ← valueOrEmpty? fuel stops true rest
          let (more, rest) ← blockFields? fuel rest
          some ((keyName key, value) :: more, rest)
      | .blockEnd :: rest => some ([], rest)
      | _ => none

/-- Read the items of a flow sequence and its closing bracket. Behind the first item a comma has to come.
    A key makes a mapping of one field; where no node follows its mark, the next token counts as its node. -/
def flowItems? : Nat → Bool → List Token → Option (List Document × List Token)
  | 0, _, _ => none
  | fuel + 1, first, tokens =>
      match first, tokens with
      | _, .closeSequence :: rest => some ([], rest)
      | false, .comma :: .closeSequence :: rest => some ([], rest)
      | false, .comma :: rest => flowItem? fuel rest
      | false, _ => none
      | true, _ => flowItem? fuel tokens

def flowItem? : Nat → List Token → Option (List Document × List Token)
  | 0, _ => none
  | fuel + 1, tokens =>
      match tokens with
      | .key :: rest => do
          let stops := [.comma, .closeSequence]
          let (key, rest) ←
            if nextIn (.value :: stops) rest then some (emptyNode, rest.drop 1)
            else node? fuel false false rest
          let (value, rest) ← valueOrEmpty? fuel stops false rest
          let (more, rest) ← flowItems? fuel false rest
          some (.object [(keyName key, value)] :: more, rest)
      | _ => do
          let (item, rest) ← node? fuel false false tokens
          let (more, rest) ← flowItems? fuel false rest
          some (item :: more, rest)

/-- Read the fields of a flow mapping and its closing bracket. Behind the first field a comma has to come. -/
def flowFields? : Nat → Bool → List Token →
    Option (List (Option String × Document) × List Token)
  | 0, _, _ => none
  | fuel + 1, first, tokens =>
      match first, tokens with
      | _, .closeMapping :: rest => some ([], rest)
      | false, .comma :: .closeMapping :: rest => some ([], rest)
      | false, .comma :: rest => flowField? fuel rest
      | false, _ => none
      | true, _ => flowField? fuel tokens

/-- Read a field of a flow mapping and those behind it. A node that is no key has no value. -/
def flowField? : Nat → List Token → Option (List (Option String × Document) × List Token)
  | 0, _ => none
  | fuel + 1, tokens =>
      match tokens with
      | .key :: rest => do
          let stops := [.comma, .closeMapping]
          let (key, rest) ← nodeOrEmpty? fuel (.value :: stops) false false rest
          let (value, rest) ← valueOrEmpty? fuel stops false rest
          let (more, rest) ← flowFields? fuel false rest
          some ((keyName key, value) :: more, rest)
      | _ => do
          let (key, rest) ← node? fuel false false tokens
          let (more, rest) ← flowFields? fuel false rest
          some ((keyName key, emptyNode) :: more, rest)

end

/-- Read the content of a document that a mark may open. -/
def content? (tokens : List Token) : Option (Document × List Token) :=
  let fuel := 3 * tokens.length + 3
  match tokens with
  | [] | [.documentStart] => some (emptyNode, [])
  | .documentStart :: rest =>
      nodeOrEmpty? fuel [.documentStart, .documentEnd] true false rest
  | _ => node? fuel true false tokens

/-- Read a text that holds one document, which marks of its end may follow. -/
def read? (text : String) : Option Document := do
  let tokens ← tokens? text.toList
  let (document, rest) ← content? tokens
  if rest.all (· == .documentEnd) then some document else none

end TwoLane.Yaml
