import TwoLane.Instruction.Operation

/-! # Levels

A level is the program itself or the body of one circuit definition. It knows its own code lines, labels,
jumps, halts and calls, and the circuits defined in it, which are levels again. A gate counts as a call where
a circuit of its name is defined in the level or in one around it.
-/

namespace TwoLane

/-- A call of a circuit with its actual qubits. -/
structure Call where
  name : String
  qubits : List String
  deriving Repr, DecidableEq, Inhabited

/-- One nesting level of a program. -/
structure Level where
  /-- The line of each label. -/
  labels : List (String × Nat)
  /-- The label each unconditional jump leads to. -/
  jumps : List (Nat × String)
  /-- The label each conditional jump leads to. -/
  conditionalJumps : List (Nat × String)
  /-- The lines that stop the program, in increasing order. -/
  halts : List Nat
  /-- The circuits defined in this level. -/
  circuits : List (String × Level)
  /-- The formal qubits, where the level is a circuit body. -/
  formals : List String
  /-- The code lines in increasing order. -/
  lines : List Nat
  /-- The calls by line. -/
  calls : List (Nat × Call)
  deriving Inhabited

namespace Level

/-- A level with the given code lines and nothing on them. -/
def ofLines (lines : List Nat) : Level :=
  ⟨[], [], [], [], [], [], Sorted.ofList lines, []⟩

def circuitName (definition : Tree) : String :=
  ((definition.child? Rule.name.text).map Tree.label).getD definition.label

mutual

/-- The circuit definitions below a node that stand in no other definition. -/
def definitions : Tree → List Tree
  | ⟨line, rule, label, children⟩ =>
      if rule = Rule.defCircuit.text then [⟨line, rule, label, children⟩]
      else definitionsOfAll children

/-- The circuit definitions in several trees that stand in no other definition. -/
def definitionsOfAll : List Tree → List Tree
  | [] => []
  | node :: rest => definitions node ++ definitionsOfAll rest

end

mutual

/-- The nodes of a tree that belong to the level around it: all but those of circuit definitions. -/
def ownNodes : Tree → List Tree
  | ⟨line, rule, label, children⟩ =>
      if rule = Rule.defCircuit.text then []
      else ⟨line, rule, label, children⟩ :: ownNodesOfAll children

/-- The nodes of several trees that belong to the level around them. -/
def ownNodesOfAll : List Tree → List Tree
  | [] => []
  | node :: rest => ownNodes node ++ ownNodesOfAll rest

end

/-- The call that a gate node makes, if it names a visible circuit. -/
def call? (visible : List String) (node : Tree) : Option Call :=
  if visible.contains (node.childLabel .name) then
    some ⟨node.childLabel .name, Operation.qubitsOf node []⟩
  else none

/-- Note what a node does to the flow of control. A label keeps its first line; a line keeps its last jump. -/
def recordFlow (visible : List String) (level : Level) (node : Tree) : Level :=
  match node.kind with
  | some .defLabel =>
      let name := Operation.labelName node
      if Table.contains name level.labels then level
      else { level with labels := Table.put name node.line level.labels }
  | some .jump =>
      { level with jumps := Table.put node.line (Operation.labelName node) level.jumps }
  | some .jumpWhen | some .jumpUnless =>
      { level with
        conditionalJumps := Table.put node.line (Operation.labelName node) level.conditionalJumps }
  | some .halt => { level with halts := Sorted.insert node.line level.halts }
  | some .gate =>
      match call? visible node with
      | some call => { level with calls := Table.put node.line call level.calls }
      | none => level
  | _ => level

def ofNodes (visible : List String) (formals : List String) (circuits : List (String × Level))
    (nodes : List Tree) : Level :=
  let code := (nodes.filter Tree.isLeaf).map Tree.line
  nodes.foldl (recordFlow visible)
    { ofLines code with formals := formals, circuits := Table.ofList circuits }

mutual

def ofBody (inherited formals : List String) : Tree → Level
  | ⟨_, _, _, children⟩ =>
      let visible := Sorted.union inherited ((definitionsOfAll children).map circuitName)
      ofNodes visible formals (circuitsOfAll visible children) (ownNodesOfAll children)

def circuitsOf (visible : List String) : Tree → List (String × Level)
  | ⟨line, rule, label, children⟩ =>
      if rule = Rule.defCircuit.text then
        let definition : Tree := ⟨line, rule, label, children⟩
        let formals := (definition.childrenOf Rule.qubitVariable.text).map Tree.label
        [(circuitName definition, bodyLevel visible formals children)]
      else circuitsOfAll visible children

/-- The circuits that several nodes define for the level around them. -/
def circuitsOfAll (visible : List String) : List Tree → List (String × Level)
  | [] => []
  | node :: rest => circuitsOf visible node ++ circuitsOfAll visible rest

/-- The level of the first circuit body among the children of a definition; without one it is empty. -/
def bodyLevel (visible formals : List String) : List Tree → Level
  | [] => { ofLines [] with formals := formals }
  | node :: rest =>
      if node.isA Rule.circuitBody.text then ofBody visible formals node
      else bodyLevel visible formals rest

end

/-- The top level of a program. -/
def ofTree (root : Tree) : Level :=
  ofBody [] [] root

/-- The line of a label. -/
def labelLine? (level : Level) (label : String) : Option Nat :=
  Table.get? label level.labels

/-- The first label, in the order of names, on a line. -/
def labelAt? (level : Level) (line : Nat) : Option String :=
  (level.labels.find? (fun entry => entry.2 == line)).map Prod.fst

/-- Where the unconditional jump on a line leads. -/
def jumpAt? (level : Level) (line : Nat) : Option String :=
  Table.get? line level.jumps

def conditionalJumpAt? (level : Level) (line : Nat) : Option String :=
  Table.get? line level.conditionalJumps

/-- Whether the program stops on a line. -/
def haltsAt (level : Level) (line : Nat) : Bool :=
  level.halts.contains line

def callAt? (level : Level) (line : Nat) : Option Call :=
  Table.get? line level.calls

def circuit? (level : Level) (name : String) : Option Level :=
  Table.get? name level.circuits

def position? (level : Level) (line : Nat) : Option Nat :=
  level.lines.findIdx? (fun other => other == line)

end Level

end TwoLane
