/-! # Grammar rules

A front end labels each node of a syntax tree with the name of the grammar rule that produced it. These
are the rules that carry meaning here; a tree may hold nodes of any other rule.
-/

namespace TwoLane

/-- A grammar rule with a meaning. -/
inductive Rule where
  | program
  | gate
  | measure
  | reset
  | classicalUnary
  | classicalBinary
  | classicalComparison
  | load
  | store
  | declare
  | defLabel
  | jump
  | jumpWhen
  | jumpUnless
  | halt
  | defCircuit
  | circuitBody
  | name
  | qubit
  | qubitVariable
  | param
  | addr
  | number
  | label
  | expression
  deriving Repr, DecidableEq, Inhabited

namespace Rule

/-- The name under which the front end knows a rule. -/
def text : Rule → String
  | .program => "quil"
  | .gate => "gate"
  | .measure => "measure"
  | .reset => "resetState"
  | .classicalUnary => "classicalUnary"
  | .classicalBinary => "classicalBinary"
  | .classicalComparison => "classicalComparison"
  | .load => "load"
  | .store => "store"
  | .declare => "memoryDescriptor"
  | .defLabel => "defLabel"
  | .jump => "jump"
  | .jumpWhen => "jumpWhen"
  | .jumpUnless => "jumpUnless"
  | .halt => "halt"
  | .defCircuit => "defCircuit"
  | .circuitBody => "circuit"
  | .name => "name"
  | .qubit => "qubit"
  | .qubitVariable => "qubitVariable"
  | .param => "param"
  | .addr => "addr"
  | .number => "number"
  | .label => "label"
  | .expression => "expression"

def all : List Rule :=
  [.program, .gate, .measure, .reset, .classicalUnary, .classicalBinary, .classicalComparison,
    .load, .store, .declare, .defLabel, .jump, .jumpWhen, .jumpUnless, .halt, .defCircuit,
    .circuitBody, .name, .qubit, .qubitVariable, .param, .addr, .number, .label, .expression]

def ofText? (text : String) : Option Rule :=
  all.find? (fun rule => rule.text == text)

theorem mem_all (rule : Rule) : rule ∈ all := by
  cases rule <;> decide

theorem text_of_ofText? {text : String} {rule : Rule} (h : ofText? text = some rule) :
    rule.text = text := by
  simpa using List.find?_some h

@[simp] theorem ofText?_text (rule : Rule) : ofText? rule.text = some rule := by
  cases rule <;> decide

theorem ofText?_eq_some_iff {text : String} {rule : Rule} :
    ofText? text = some rule ↔ text = rule.text :=
  ⟨fun h => (text_of_ofText? h).symm, fun h => h ▸ ofText?_text rule⟩

end Rule

end TwoLane
