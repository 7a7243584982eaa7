import TwoLane.Instruction.Operation

/-! # Drafts

A draft assembles a syntax tree and its source text together from statements, one statement a line. A
circuit definition takes one line for its header; the statements of its body follow on the next ones, four
blanks further in, and refer to the formal qubits by name.
-/

namespace TwoLane

/-- A line of a program to be assembled, or a circuit definition with its body. -/
inductive Statement where
  | gate (name : String) (params qubits : List String)
  | measure (qubit : String) (target : Option String)
  | reset (qubit : Option String)
  | classical (opcode : String) (operands : List String)
  | declare (name type : String)
  | label (name : String)
  | jump (name : String)
  | jumpWhen (name condition : String)
  | jumpUnless (name condition : String)
  | halt
  | defCircuit (name : String) (formals : List String) (body : List Statement)
  deriving Inhabited

/-- A program under construction. -/
structure Draft where
  /-- The line of the next statement. -/
  nextLine : Nat
  nodes : List Tree
  lines : List String
  /-- The formal qubits that are in scope. -/
  formals : List String
  indent : Nat
  deriving Inhabited

namespace Draft

def empty : Draft :=
  ⟨0, [], [], [], 0⟩

def sourceLine (draft : Draft) (node : Tree) : String :=
  String.ofList (List.replicate draft.indent ' ') ++ (Operation.ofTree node []).text

/-- Append a node that takes one line. -/
def push (draft : Draft) (node : Tree) : Draft :=
  { draft with
    nextLine := draft.nextLine + 1
    nodes := draft.nodes ++ [node]
    lines := draft.lines ++ [draft.sourceLine node] }

/-- The leaf of an operand: numbers are written in their canonical form. -/
def operandLeaf (line : Nat) (text : String) : Tree :=
  match Operand.read text with
  | .literal value => .leaf line .number value.text
  | .address name => .leaf line .addr name
  | .expression words _ => .leaf line .expression words

def qubitLeaf (draft : Draft) (qubit : String) : Tree :=
  .leaf draft.nextLine (if draft.formals.contains qubit then .qubitVariable else .qubit) qubit

/-- The grammar rule of a classical instruction. -/
def classicalRule (opcode : String) : Rule :=
  if ["NEG", "NOT", "TRUE", "FALSE"].contains opcode then .classicalUnary
  else if ["EQ", "GT", "GE", "LT", "LE"].contains opcode then .classicalComparison
  else if opcode = "LOAD" then .load
  else if opcode = "STORE" then .store
  else .classicalBinary

/-- The node of a statement that takes one line, or of the header of a circuit definition. -/
def node (draft : Draft) : Statement → Tree
  | .gate name params qubits =>
      let line := draft.nextLine
      let param (text : String) : Tree :=
        ⟨line, Rule.param.text, text, [operandLeaf line text]⟩
      ⟨line, Rule.gate.text, name,
        .leaf line .name name :: params.map param ++ qubits.map draft.qubitLeaf⟩
  | .measure qubit target =>
      let line := draft.nextLine
      ⟨line, Rule.measure.text, "MEASURE",
        draft.qubitLeaf qubit :: target.toList.map (fun t => .leaf line .addr t)⟩
  | .reset qubit =>
      ⟨draft.nextLine, Rule.reset.text, "RESET", qubit.toList.map draft.qubitLeaf⟩
  | .classical opcode operands =>
      let line := draft.nextLine
      let opcode := opcode.map Char.toUpper
      ⟨line, (classicalRule opcode).text, opcode,
        .leaf line .name opcode :: operands.map (operandLeaf line)⟩
  | .declare name type =>
      ⟨draft.nextLine, Rule.declare.text, "DECLARE " ++ name ++ " " ++ type,
        [.leaf draft.nextLine .name name]⟩
  | .label name =>
      ⟨draft.nextLine, Rule.defLabel.text, "LABEL @" ++ name, [.leaf draft.nextLine .label name]⟩
  | .jump name =>
      ⟨draft.nextLine, Rule.jump.text, "JUMP @" ++ name, [.leaf draft.nextLine .label name]⟩
  | .jumpWhen name condition =>
      ⟨draft.nextLine, Rule.jumpWhen.text, name,
        [.leaf draft.nextLine .label name, .leaf draft.nextLine .addr condition]⟩
  | .jumpUnless name condition =>
      ⟨draft.nextLine, Rule.jumpUnless.text, name,
        [.leaf draft.nextLine .label name, .leaf draft.nextLine .addr condition]⟩
  | .halt => .leaf draft.nextLine .halt "HALT"
  | .defCircuit name formals _ =>
      ⟨draft.nextLine, Rule.defCircuit.text, name,
        .leaf draft.nextLine .name name ::
          formals.map (fun formal => .leaf draft.nextLine .qubitVariable formal)⟩

/-- The draft in which the body of a circuit is assembled, below its header. -/
def body (draft : Draft) (formals : List String) : Draft :=
  ⟨draft.nextLine + 1, [], [], formals, draft.indent + 4⟩

def closeCircuit (draft : Draft) (header : Tree) (inner : Draft) : Draft :=
  let bodyNode : Tree := ⟨draft.nextLine + 1, Rule.circuitBody.text, "", inner.nodes⟩
  let definition := header.withChildren [bodyNode]
  { draft with
    nextLine := inner.nextLine
    nodes := draft.nodes ++ [definition]
    lines := draft.lines ++ draft.sourceLine definition :: inner.lines }

mutual

def add (draft : Draft) : Statement → Draft
  | .defCircuit name formals statements =>
      draft.closeCircuit (draft.node (.defCircuit name formals []))
        (addAll (draft.body formals) statements)
  | .gate name params qubits => draft.push (draft.node (.gate name params qubits))
  | .measure qubit target => draft.push (draft.node (.measure qubit target))
  | .reset qubit => draft.push (draft.node (.reset qubit))
  | .classical opcode operands => draft.push (draft.node (.classical opcode operands))
  | .declare name type => draft.push (draft.node (.declare name type))
  | .label name => draft.push (draft.node (.label name))
  | .jump name => draft.push (draft.node (.jump name))
  | .jumpWhen name condition => draft.push (draft.node (.jumpWhen name condition))
  | .jumpUnless name condition => draft.push (draft.node (.jumpUnless name condition))
  | .halt => draft.push (draft.node .halt)

/-- Append statements one after the other. -/
def addAll (draft : Draft) : List Statement → Draft
  | [] => draft
  | statement :: rest => addAll (draft.add statement) rest

end

/-- Assemble a program. -/
def ofStatements (statements : List Statement) : Draft :=
  addAll empty statements

def tree (draft : Draft) : Tree :=
  ⟨0, Rule.program.text, "", draft.nodes⟩

def source (draft : Draft) : String :=
  "\n".intercalate draft.lines

end Draft

end TwoLane
