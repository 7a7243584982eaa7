import TwoLane.InstructionList.Change
import TwoLane.Optimize.Constants
import TwoLane.Optimize.Error

/-! # Folding

Known values replace operands. A classical instruction whose result is known becomes a move, a gate whose
parameters are known is no hybrid any more, and a measurement whose outcome is certain becomes a move.
References that an instruction no longer names leave its chains.
-/

namespace TwoLane

inductive FoldRule where
  | classical
  | quantum
  | hybrid
  /-- The instruction stays as it is. -/
  | keep
  deriving Repr, DecidableEq, Inhabited

namespace FoldRule

def ofCategory : Category → FoldRule
  | .classical => .classical
  | .quantum => .quantum
  | .classicalToQuantum | .quantumToClassical => .hybrid
  | .control | .classicalControl => .keep

def name : FoldRule → String
  | .classical => "Classical"
  | .quantum => "Quantum"
  | .hybrid => "Hybrid"
  | .keep => "Default"

def accepts (rule : FoldRule) (category : Category) : Bool :=
  rule == .keep || rule == ofCategory category

end FoldRule

namespace Folding

def detachAll (list : InstructionList) (id : Nat) (names : List String) : InstructionList :=
  names.foldl
    (fun acc name =>
      (acc.unlink id (.memory name)).modify id (fun node => node.dropOccurrence (.memory name)))
    list

def unnamed (node : Instruction) (operands : List Operand) : List String :=
  let named := operands.flatMap Operand.addresses
  (node.memory.map MemoryOccurrence.name).filter
    (fun name => !named.any (fun other => Memory.mayOverlap other name))

/-- Put a value in the place of an operand that is a reference with a known value. -/
def substitute (list : InstructionList) (node : Instruction) (operand : Operand) : Operand :=
  match operand with
  | .address name =>
      match list.memoryBefore? node name with
      | some value => .literal value
      | none => operand
  | _ => operand

/-- The operands of a classical instruction with known values in place of the references it only reads.
    References that tell where to load or store stay. -/
def substituteOperands (list : InstructionList) (node : Instruction) (opcode : String)
    (operands : List Operand) : List Operand :=
  operands.zipIdx.map (fun entry =>
    if entry.2 < Operation.writtenCount opcode || node.operation.fixedOperand entry.2 then entry.1
    else substitute list node entry.1)

/-- The move of a known result, or the instruction with the given operands. -/
def simplify (opcode : String) (operands : List Operand) (written : List Written) : Operation :=
  if opcode = "MOVE" ∨ opcode = "EXCHANGE" then .classical opcode operands
  else
    match operands[0]?, written with
    | some target, [⟨_, some value⟩] => .classical "MOVE" [target, .literal value]
    | _, _ => .classical opcode operands

/-- Note the values that an instruction writes. -/
def noteWritten (written : List Written) (node : Instruction) : Instruction :=
  written.foldl
    (fun acc w =>
      match w.value with
      | some value => acc.modifyMemory w.name (fun o => { o with value := some value })
      | none => acc)
    node

def operandsOf : Operation → List Operand
  | .classical _ operands => operands
  | _ => []

/-- Fold a classical instruction. Answers whether it changed. -/
def foldClassical (list : InstructionList) (node : Instruction) : InstructionList × Bool :=
  match node.operation with
  | .classical opcode operands =>
      let folded := substituteOperands list node opcode operands
      let written := Evaluation.writes opcode folded (list.operandBefore? node)
      let operation := simplify opcode folded written
      let noted := list.modify node.id (noteWritten written)
      if operation != node.operation then
        (detachAll (noted.modify node.id (fun n => n.setOperation operation)) node.id
          (unnamed node (operandsOf operation)), true)
      else (noted, false)
  | _ => (list, false)

/-- Follow the states of a qubit through an instruction; states known already are kept. -/
def followQubit (list : InstructionList) (isEntry : Bool) (node : Instruction)
    (occurrence : QubitOccurrence) : QubitOccurrence :=
  let before := occurrence.before.or (list.qubitBefore? isEntry node occurrence.name)
  { occurrence with
    before := before
    after := occurrence.after.or (node.operation.stateAfter? occurrence.use before) }

/-- Follow the states of the qubits of an instruction. Answers whether a state became known. -/
def foldQuantum (list : InstructionList) (isEntry : Bool) (node : Instruction) :
    InstructionList × Bool :=
  let qubits := node.qubits.map (followQubit list isEntry node)
  let learned := (node.qubits.zip qubits).any
    (fun pair => pair.1.after.isNone && pair.2.after.isSome)
  (list.modify node.id (fun n => { n with qubits := qubits }), learned)

def foldGate (list : InstructionList) (node : Instruction) (name : String) (params : List Operand)
    (qubits : List String) : InstructionList × Bool :=
  let folded := params.map (substitute list node)
  let substituted := (params.zip folded).any
    (fun pair => pair.1.address?.isSome && pair.2.literal?.isSome)
  if substituted then
    let changed := list.modify node.id (fun n => n.setOperation (.gate name folded qubits))
    let detached := detachAll changed node.id (unnamed node folded)
    (detached.modify node.id
      (fun n => if n.memory.isEmpty then { n with category := .quantum } else n), true)
  else (list, false)

def foldMeasurement (list : InstructionList) (isEntry : Bool) (node : Instruction)
    (qubit target : String) : InstructionList × Bool :=
  let before := ((node.qubit? qubit).bind QubitOccurrence.before).or
    (list.qubitBefore? isEntry node qubit)
  match before.bind QubitState.outcome? with
  | none => (list, false)
  | some outcome =>
      let value := Number.ofBool outcome
      let moved := list.modify node.id (fun n =>
        { n.setOperation (.classical "MOVE" [.address target, .literal value]) with
          category := .classical }.modifyMemory target (fun o => { o with value := some value }))
      ((moved.unlink node.id (.qubit qubit)).modify node.id
        (fun n => n.dropOccurrence (.qubit qubit)), true)

def foldHybrid (list : InstructionList) (isEntry : Bool) (node : Instruction) :
    InstructionList × Bool :=
  match node.operation with
  | .gate name params qubits => foldGate list node name params qubits
  | .measure qubit (some target) => foldMeasurement list isEntry node qubit target
  | _ => (list, false)

def foldNode (rule : FoldRule) (list : InstructionList) (isEntry : Bool) (node : Instruction) :
    InstructionList × Bool :=
  match rule with
  | .classical => foldClassical list node
  | .quantum => foldQuantum list isEntry node
  | .hybrid => foldHybrid list isEntry node
  | .keep => (list, false)

def foldAt (rule : FoldRule) (list : InstructionList) (id : Nat) (isEntry : Bool) :
    Except OptimizeError (InstructionList × Bool) := do
  let node ← OptimizeError.lift (list.get id)
  if rule.accepts node.category then .ok (foldNode rule list isEntry node)
  else .error (.ruleMismatch rule.name node.line node.category)

/-- The change of text between two versions of an instruction, if it has changed. -/
def textChange (before after : Instruction) : Option TextChange :=
  if before.text = after.text then none else some ⟨after.line, before.text, after.text⟩

def foldAll (isEntry : Bool) (list : InstructionList) :
    List Nat → InstructionList × List TextChange
  | [] => (list, [])
  | id :: rest =>
      match list.get? id with
      | none => foldAll isEntry list rest
      | some node =>
          let folded := foldNode (.ofCategory node.category) list isEntry node
          let change := if folded.2 then (folded.1.get? id).bind (textChange node) else none
          let further := foldAll isEntry folded.1 rest
          (further.1, change.toList ++ further.2)

def foldList (index : Nat) (list : InstructionList) :
    InstructionList × List (Located TextChange) :=
  let result := foldAll (index == 0) list list.order
  (result.1, result.2.map (fun c => ⟨index, list.name, c⟩))

def fold (lists : List InstructionList) : List InstructionList × List (Located TextChange) :=
  let results := lists.zipIdx.map (fun entry => foldList entry.2 entry.1)
  (results.map Prod.fst, results.flatMap Prod.snd)

end Folding

end TwoLane
