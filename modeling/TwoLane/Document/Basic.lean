/-! # Documents

A document is what a structured text holds before its scalars are interpreted. Only the place where a scalar
is used says which texts and numbers fit there, so scalars stay as they are written.
-/

namespace TwoLane

/-- A structured text whose scalars are not interpreted yet. -/
inductive Document where
  | null
  | bool (value : Bool)
  | number (digits : List Char)
  /-- A quoted text; nothing if its escapes name no characters. -/
  | text (content : Option String)
  /-- A scalar without quotes, which its place makes a text, a number or nothing at all. -/
  | plain (content : String)
  | array (items : List Document)
  /-- Named fields; a key that is no text has no name. -/
  | object (fields : List (Option String × Document))
  deriving Inhabited

end TwoLane
