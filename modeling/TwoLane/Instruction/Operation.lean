import TwoLane.Sorted
import TwoLane.Memory
import TwoLane.Qubit
import TwoLane.Instruction.Operand

/-! # Operations

An operation is what an instruction does, in typed form: read from its syntax node, changed by folding, and
written back as text. From an operation follow the memory references and the qubits it touches.
-/

namespace TwoLane

/-- The actual qubits of the formal qubits of an inlined circuit body. -/
abbrev Bindings := Table String String

/-- The actual qubit of a name; a name that is not bound stands for itself. -/
def Bindings.resolve (bindings : Bindings) (name : String) : String :=
  (Table.get? name bindings).getD name

/-- An instruction in typed form. -/
inductive Operation where
  /-- The application of a gate or the call of a circuit. -/
  | gate (name : String) (params : List Operand) (qubits : List String)
  /-- The measurement of a qubit, and where the outcome goes. -/
  | measure (qubit : String) (target : Option String)
  /-- The reset of one qubit, or of all of them. -/
  | reset (qubit : Option String)
  /-- Classical arithmetic, logic, comparison, load or store. The first operand is written. -/
  | classical (opcode : String) (operands : List Operand)
  /-- A memory declaration, kept as text. -/
  | declare (text : String)
  | label (name : String)
  | jump (target : String)
  | jumpWhen (target condition : String)
  | jumpUnless (target condition : String)
  | halt
  /-- The header of a circuit definition. -/
  | circuit (name : String) (formals : List String)
  /-- Anything else, kept as text. -/
  | other (text : String)
  deriving BEq, Inhabited

namespace Operation

def labelName (node : Tree) : String :=
  String.ofList ((node.childLabel .label).toList.dropWhile (fun c => c == '@'))

/-- The qubits that the children of a node name, formal ones replaced by actual ones. -/
def qubitsOf (node : Tree) (bindings : Bindings) : List String :=
  (node.children.filter
      (fun child => child.isA Rule.qubit.text || child.isA Rule.qubitVariable.text)).map
    (fun child => Bindings.resolve bindings child.label)

/-- Read the operation of a syntax node under the bindings of the circuit body it stands in. -/
def ofTree (node : Tree) (bindings : Bindings) : Operation :=
  match node.kind with
  | some .gate =>
      .gate (node.childLabel .name) ((node.childrenOf Rule.param.text).map Operand.ofTree)
        (qubitsOf node bindings)
  | some .measure =>
      .measure ((qubitsOf node bindings).head?.getD "") ((node.child? Rule.addr.text).map Tree.label)
  | some .reset => .reset (qubitsOf node bindings).head?
  | some .classicalUnary | some .classicalBinary | some .classicalComparison
  | some .load | some .store =>
      .classical ((node.childLabel .name).map Char.toUpper)
        ((node.children.filter
            (fun child => child.isA Rule.addr.text || child.isA Rule.number.text)).map
          Operand.ofTree)
  | some .declare => .declare node.label
  | some .defLabel => .label (labelName node)
  | some .jump => .jump (labelName node)
  | some .jumpWhen => .jumpWhen (labelName node) (node.childLabel .addr)
  | some .jumpUnless => .jumpUnless (labelName node) (node.childLabel .addr)
  | some .halt => .halt
  | some .defCircuit =>
      .circuit (node.childLabel .name)
        ((node.childrenOf Rule.qubitVariable.text).map Tree.label)
  | _ => .other node.label

def accessesOf (use : MemoryUse) (operands : List Operand) : List MemoryAccess :=
  (operands.flatMap Operand.addresses).map (fun name => ⟨name, use⟩)

/-- How many leading operands a classical instruction writes. -/
def writtenCount (opcode : String) : Nat :=
  if opcode = "EXCHANGE" then 2 else 1

/-- The memory references an operation touches; written ones come first. -/
def memoryAccesses : Operation → List MemoryAccess
  | .gate _ params _ => accessesOf .usage params
  | .measure _ target => target.toList.map (fun name => ⟨name, .assignment⟩)
  | .classical opcode operands =>
      accessesOf .assignment (operands.take (writtenCount opcode)) ++
        accessesOf .usage (operands.drop (writtenCount opcode))
  | .jumpWhen _ condition => [⟨condition, .usage⟩]
  | .jumpUnless _ condition => [⟨condition, .usage⟩]
  | _ => []

def qubitAccesses : Operation → List QubitAccess
  | .gate _ _ qubits =>
      qubits.map (fun q => ⟨q, if qubits.length > 1 then .multiGate else .singleGate⟩)
  | .measure qubit _ => [⟨qubit, .measure⟩]
  | .reset qubit => qubit.toList.map (fun q => ⟨q, .singleGate⟩)
  | _ => []

def isGlobalReset : Operation → Bool
  | .reset none => true
  | _ => false

def isReset : Operation → Bool
  | .reset _ => true
  | _ => false

/-- Whether the operand at a position has to stay a reference: the region and the index of a load, and
    the region and the index of a store. -/
def fixedOperand (operation : Operation) (index : Nat) : Bool :=
  match operation with
  | .classical "LOAD" _ => 1 ≤ index
  | .classical "STORE" _ => index ≤ 1
  | _ => false

/-- The opcodes whose first operand is read as well as written. A store writes one element of its region
    and leaves the others as they were. -/
def updatingOpcodes : List String :=
  ["NEG", "NOT", "ADD", "SUB", "MUL", "DIV", "AND", "IOR", "XOR", "EXCHANGE", "STORE"]

/-- Whether a classical instruction reads the operand it writes. -/
def readsTarget : Operation → Bool
  | .classical opcode _ => updatingOpcodes.contains opcode
  | _ => false

/-- The label a jump leads to. -/
def jumpTarget? : Operation → Option String
  | .jump target => some target
  | .jumpWhen target _ => some target
  | .jumpUnless target _ => some target
  | _ => none

/-- Words behind a first one, each after a blank. -/
def words (first : String) (rest : List String) : String :=
  rest.foldl (fun text word => text ++ " " ++ word) first

def text : Operation → String
  | .gate name params qubits =>
      let applied :=
        if params.isEmpty then name
        else name ++ "(" ++ ", ".intercalate (params.map Operand.text) ++ ")"
      words applied qubits
  | .measure qubit target => words "MEASURE" (qubit :: target.toList)
  | .reset qubit => words "RESET" qubit.toList
  | .classical opcode operands => words opcode (operands.map Operand.text)
  | .declare content => content
  | .label name => "LABEL @" ++ name
  | .jump target => "JUMP @" ++ target
  | .jumpWhen target condition => words ("JUMP-WHEN @" ++ target) [condition]
  | .jumpUnless target condition => words ("JUMP-UNLESS @" ++ target) [condition]
  | .halt => "HALT"
  | .circuit name formals =>
      if formals.isEmpty then "DEFCIRCUIT " ++ name ++ ":"
      else "DEFCIRCUIT " ++ name ++ " " ++ " ".intercalate formals ++ ":"
  | .other content => content

/-- The report form of an operation. -/
def toJson : Operation → Json
  | .gate name params qubits =>
      .tagged "Gate"
        (.obj [("name", .str name), ("params", .list Operand.toJson params),
          ("qubits", .strings qubits)])
  | .measure qubit target =>
      .tagged "Measure" (.obj [("qubit", .str qubit), ("target", .option .str target)])
  | .reset qubit => .tagged "Reset" (.obj [("qubit", .option .str qubit)])
  | .classical opcode operands =>
      .tagged "Classical"
        (.obj [("opcode", .str opcode), ("operands", .list Operand.toJson operands)])
  | .declare content => .tagged "Declare" (.str content)
  | .label name => .tagged "Label" (.str name)
  | .jump target => .tagged "Jump" (.str target)
  | .jumpWhen target condition =>
      .tagged "JumpWhen" (.obj [("target", .str target), ("condition", .str condition)])
  | .jumpUnless target condition =>
      .tagged "JumpUnless" (.obj [("target", .str target), ("condition", .str condition)])
  | .halt => .str "Halt"
  | .circuit name formals =>
      .tagged "CircuitDefinition" (.obj [("name", .str name), ("formals", .strings formals)])
  | .other content => .tagged "Other" (.str content)

end Operation

end TwoLane
