import TwoLane.Tree.Basic

/-! # Line categories

Every line with an instruction belongs to one category, read off the syntax tree alone. Quantum lines
run on the quantum device, classical and control lines on its controller, and hybrid lines make the two
lanes wait for each other.
-/

namespace TwoLane

/-- The category of a source line. -/
inductive Category where
  | quantum
  | classical
  /-- A quantum operation that takes a classical value as a parameter. -/
  | classicalToQuantum
  /-- A measurement whose outcome is stored. -/
  | quantumToClassical
  /-- A label, an unconditional jump, a halt or a circuit definition. -/
  | control
  /-- A jump that a classical value decides. -/
  | classicalControl
  deriving Repr, DecidableEq, Inhabited

namespace Category

/-- Whether the line makes the two lanes wait for each other. -/
def isHybrid : Category → Bool
  | .classicalToQuantum | .quantumToClassical => true
  | _ => false

/-- Whether the line steers the flow of control. -/
def isControl : Category → Bool
  | .control | .classicalControl => true
  | _ => false

/-- Whether the line runs on the quantum device. -/
def onQuantumLane (category : Category) : Bool :=
  category == .quantum || category.isHybrid

/-- Whether the line runs on the controller alone. -/
def onClassicalLane (category : Category) : Bool :=
  category == .classical || category.isControl

def name : Category → String
  | .quantum => "Quantum"
  | .classical => "Classical"
  | .classicalToQuantum => "ClassicalInfluencesQuantum"
  | .quantumToClassical => "QuantumInfluencesClassical"
  | .control => "ControlStructure"
  | .classicalControl => "ControlStructureInfluencedClassical"

def text : Category → String
  | .quantum => "quantum"
  | .classical => "classical"
  | .classicalToQuantum => "classical->quantum"
  | .quantumToClassical => "quantum->classical"
  | .control => "control"
  | .classicalControl => "control(classical)"

def ofName? : String → Option Category
  | "Quantum" => some .quantum
  | "Classical" => some .classical
  | "ClassicalInfluencesQuantum" => some .classicalToQuantum
  | "QuantumInfluencesClassical" => some .quantumToClassical
  | "ControlStructure" => some .control
  | "ControlStructureInfluencedClassical" => some .classicalControl
  | _ => none

/-- Whether a gate node takes a memory reference as a parameter. -/
def hasAddressParam (node : Tree) : Bool :=
  (node.childrenOf Rule.param.text).any (fun param => param.contains Rule.addr.text)

/-- The category of an instruction node; nodes of other rules have none. -/
def ofTree? (node : Tree) : Option Category :=
  match node.kind with
  | some .gate => some (if hasAddressParam node then .classicalToQuantum else .quantum)
  | some .measure =>
      some (if (node.child? Rule.addr.text).isSome then .quantumToClassical else .quantum)
  | some .reset => some .quantum
  | some .classicalUnary | some .classicalBinary | some .classicalComparison
  | some .load | some .store | some .declare => some .classical
  | some .defLabel | some .jump | some .halt | some .defCircuit => some .control
  | some .jumpWhen | some .jumpUnless => some .classicalControl
  | _ => none

@[simp] theorem ofName?_name (category : Category) : ofName? category.name = some category := by
  cases category <;> rfl

end Category

end TwoLane
