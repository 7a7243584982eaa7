import TwoLane.Number
import TwoLane.Tree.Basic

/-! # Operands

An operand of a classical instruction or a gate parameter is a memory reference, a literal number, or any other
expression, which is kept as text together with the references it mentions.
-/

namespace TwoLane

/-- A classical operand or gate parameter. -/
inductive Operand where
  | address (name : String)
  | literal (value : Number)
  | expression (text : String) (addresses : List String)
  deriving BEq, Inhabited

namespace Operand

/-- Whether a character can start a memory reference. -/
def startsAddress (c : Char) : Bool :=
  c.isAlpha || c == '_'

/-- Whether a character can stand in a memory reference. -/
def inAddress (c : Char) : Bool :=
  c.isAlphanum || c == '_' || c == '[' || c == ']'

/-- Whether a text has the shape of a memory reference. -/
def isAddress (text : List Char) : Bool :=
  match text with
  | [] => false
  | c :: rest => startsAddress c && (c :: rest).all inAddress

/-- Interpret a token: a number if it reads as one, else a memory reference if it has that shape, else an
    expression that mentions no reference. -/
def read (text : String) : Operand :=
  match Number.read text with
  | some value => .literal value
  | none => if isAddress text.toList then .address text else .expression text []

/-- Interpret an operand node. A parameter or expression with a single child stands for that child. -/
def ofTree : Tree → Operand
  | ⟨line, rule, label, children⟩ =>
      match Rule.ofText? rule, children with
      | some .addr, _ => .address label
      | some .number, _ => read label
      | some .param, [inner] => ofTree inner
      | some .expression, [inner] => ofTree inner
      | _, _ => .expression label (Tree.addresses ⟨line, rule, label, children⟩)

/-- The memory references read through an operand. -/
def addresses : Operand → List String
  | .address name => [name]
  | .literal _ => []
  | .expression _ names => names

def literal? : Operand → Option Number
  | .literal value => some value
  | _ => none

/-- The memory reference, if the operand is nothing but one. -/
def address? : Operand → Option String
  | .address name => some name
  | _ => none

def text : Operand → String
  | .address name => name
  | .literal value => value.text
  | .expression words _ => words

/-- The report form of an operand. -/
def toJson : Operand → Json
  | .address name => .tagged "Address" (.str name)
  | .literal value => .tagged "Literal" value.toJson
  | .expression words names =>
      .tagged "Expression" (.obj [("text", .str words), ("addresses", .strings names)])

end Operand

end TwoLane
