import TwoLane.InstructionList.Basic
import TwoLane.Optimize.Evaluation
import TwoLane.Optimize.Report

/-! # Constants

Values travel forwards along the chains. The value of a memory reference before an instruction is the one its
only predecessor on the chain left. A qubit that nothing touched before it starts in the zero state, if
the list is the one with which the program starts. What an occurrence is known to hold is kept where nothing
new is found out.
-/

namespace TwoLane

namespace InstructionList

/-- The value of a memory reference just before an instruction runs. -/
def memoryBefore? (list : InstructionList) (node : Instruction) (name : String) : Option Number :=
  match (node.memory? name).map (fun o => o.links.previous) with
  | some [previous] => do ((← (← list.get? previous).memory? name)).value
  | _ => none

def qubitBefore? (list : InstructionList) (isEntry : Bool) (node : Instruction) (name : String) :
    Option QubitState :=
  match (node.qubit? name).map (fun o => o.links.previous) with
  | some [] => if isEntry then some .zero else none
  | some [previous] => do ((← (← list.get? previous).qubit? name)).after
  | _ => none

def operandBefore? (list : InstructionList) (node : Instruction) : Operand → Option Number
  | .literal value => some value
  | .address name => list.memoryBefore? node name
  | .expression _ _ => none

end InstructionList

/-- The state of a qubit after an operation. A measurement keeps a state whose outcome is certain. -/
def Operation.stateAfter? (operation : Operation) (use : QubitUse) (before : Option QubitState) :
    Option QubitState :=
  match operation, use with
  | .reset _, _ => some .zero
  | .measure _ _, _ => before.filter (fun state => state.outcome?.isSome)
  | .gate name _ _, .singleGate => before.bind (QubitState.applyNamed? name)
  | _, _ => none

namespace Constants

/-- The values that an instruction writes, as far as they are known. -/
def written (list : InstructionList) (isEntry : Bool) (node : Instruction) : List Written :=
  match node.operation with
  | .measure qubit (some target) =>
      [⟨target, ((list.qubitBefore? isEntry node qubit).bind QubitState.outcome?).map .ofBool⟩]
  | .classical opcode operands => Evaluation.writes opcode operands (list.operandBefore? node)
  | _ => []

/-- What is found out about the value of a memory reference after an instruction. -/
def memoryAfter? (list : InstructionList) (isEntry : Bool) (node : Instruction)
    (occurrence : MemoryOccurrence) : Option Number :=
  if occurrence.isAssignment then
    Evaluation.valueIn (written list isEntry node) occurrence.name
  else list.memoryBefore? node occurrence.name

/-- Add what is found out to an occurrence of a memory reference. -/
def annotateMemory (list : InstructionList) (isEntry : Bool) (node : Instruction)
    (occurrence : MemoryOccurrence) : MemoryOccurrence :=
  { occurrence with
    value := (memoryAfter? list isEntry node occurrence).or occurrence.value }

/-- Add what is found out to an occurrence of a qubit. -/
def annotateQubit (list : InstructionList) (isEntry : Bool) (node : Instruction)
    (occurrence : QubitOccurrence) : QubitOccurrence :=
  let before := list.qubitBefore? isEntry node occurrence.name
  { occurrence with
    before := before.or occurrence.before
    after := (node.operation.stateAfter? occurrence.use before).or occurrence.after }

/-- Add what is found out to an instruction. -/
def annotate (list : InstructionList) (isEntry : Bool) (node : Instruction) : Instruction :=
  { node with
    memory := node.memory.map (annotateMemory list isEntry node)
    qubits := node.qubits.map (annotateQubit list isEntry node) }

def newlyKnown (before after : Instruction) : List NewConstant :=
  let memory := (before.memory.zip after.memory).filterMap (fun pair =>
    match pair.1.value, pair.2.value with
    | none, some value => some ⟨after.line, pair.2.name, .memory value⟩
    | _, _ => none)
  let qubits := (before.qubits.zip after.qubits).filterMap (fun pair =>
    match pair.1.after, pair.2.after with
    | none, some state => some ⟨after.line, pair.2.name, .qubit state⟩
    | _, _ => none)
  memory ++ qubits

def annotateAt (isEntry : Bool) (list : InstructionList) (id : Nat) : InstructionList :=
  match list.get? id with
  | some node => list.modify id (fun _ => annotate list isEntry node)
  | none => list

def annotateAll (isEntry : Bool) (list : InstructionList) :
    List Nat → InstructionList × List NewConstant
  | [] => (list, [])
  | id :: rest =>
      let next := annotateAt isEntry list id
      let found :=
        match list.get? id, next.get? id with
        | some before, some after => newlyKnown before after
        | _, _ => []
      let further := annotateAll isEntry next rest
      (further.1, found ++ further.2)

/-- Propagate through the list at a position; the program starts with the list at position zero. -/
def propagateList (index : Nat) (list : InstructionList) :
    InstructionList × List (Located NewConstant) :=
  let result := annotateAll (index == 0) list list.order
  (result.1, result.2.map (fun c => ⟨index, list.name, c⟩))

/-- Propagate through every list. -/
def propagate (lists : List InstructionList) :
    List InstructionList × List (Located NewConstant) :=
  let results := lists.zipIdx.map (fun entry => propagateList entry.2 entry.1)
  (results.map Prod.fst, results.flatMap Prod.snd)

end Constants

end TwoLane
