import TwoLane.Line.Category
import TwoLane.Instruction.Operation
import TwoLane.Instruction.Occurrence
import TwoLane.Resource

/-! # Instructions

An instruction is an operation on a source line together with its category, its text and its occurrences. A
name occurs once per instruction and name space. Some occurrences are only implied by the rest of the list: a
reset of all qubits touches every qubit of the list, and a region touches its elements in the list, and the
other way round.
-/

namespace TwoLane

/-- One instruction of a list. -/
structure Instruction where
  /-- The position of the instruction in the list as it was built. -/
  id : Nat
  line : Nat
  category : Category
  text : String
  operation : Operation
  /-- Whether liveness found that no result of the instruction is used. -/
  dead : Bool
  memory : List MemoryOccurrence
  qubits : List QubitOccurrence
  deriving Inhabited, BEq

namespace Instruction

/-- Add an access to occurrences: a name that is there already becomes written where the access writes. -/
def addMemory (occurrences : List MemoryOccurrence) (access : MemoryAccess) :
    List MemoryOccurrence :=
  if occurrences.any (fun o => o.name == access.name) then
    occurrences.map (fun o =>
      if o.name == access.name && access.use == .assignment then { o with use := .assignment } else o)
  else occurrences ++ [.ofAccess access]

def addQubit (occurrences : List QubitOccurrence) (access : QubitAccess) : List QubitOccurrence :=
  if occurrences.any (fun o => o.name == access.name) then occurrences
  else occurrences ++ [.ofAccess access]

def ofOperation (line : Nat) (category : Category) (operation : Operation) : Instruction where
  id := 0
  line := line
  category := category
  text := operation.text
  operation := operation
  dead := false
  memory := operation.memoryAccesses.foldl addMemory []
  qubits := operation.qubitAccesses.foldl addQubit []

/-- Change the operation; the text follows it. -/
def setOperation (instruction : Instruction) (operation : Operation) : Instruction :=
  { instruction with operation := operation, text := operation.text }

def memory? (instruction : Instruction) (name : String) : Option MemoryOccurrence :=
  instruction.memory.find? (fun o => o.name == name)

def qubit? (instruction : Instruction) (name : String) : Option QubitOccurrence :=
  instruction.qubits.find? (fun o => o.name == name)

def modifyMemory (instruction : Instruction) (name : String)
    (change : MemoryOccurrence → MemoryOccurrence) : Instruction :=
  { instruction with
    memory := instruction.memory.map (fun o => if o.name == name then change o else o) }

def modifyQubit (instruction : Instruction) (name : String)
    (change : QubitOccurrence → QubitOccurrence) : Instruction :=
  { instruction with
    qubits := instruction.qubits.map (fun o => if o.name == name then change o else o) }

def resources (instruction : Instruction) : List Resource :=
  instruction.memory.map (fun o => .memory o.name) ++
    instruction.qubits.map (fun o => .qubit o.name)

/-- The neighbours on the chain of a resource. -/
def links? (instruction : Instruction) : Resource → Option Links
  | .memory name => (instruction.memory? name).map MemoryOccurrence.links
  | .qubit name => (instruction.qubit? name).map QubitOccurrence.links

/-- Change the neighbours on the chain of a resource. -/
def modifyLinks (instruction : Instruction) (resource : Resource) (change : Links → Links) :
    Instruction :=
  match resource with
  | .memory name => instruction.modifyMemory name (fun o => { o with links := change o.links })
  | .qubit name => instruction.modifyQubit name (fun o => { o with links := change o.links })

def dropOccurrence (instruction : Instruction) : Resource → Instruction
  | .memory name =>
      { instruction with memory := instruction.memory.filter (fun o => o.name != name) }
  | .qubit name =>
      { instruction with qubits := instruction.qubits.filter (fun o => o.name != name) }

/-- All neighbours in front, chain by chain. -/
def previous (instruction : Instruction) : List Nat :=
  instruction.memory.flatMap (fun o => o.links.previous) ++
    instruction.qubits.flatMap (fun o => o.links.previous)

def impliedAccesses (names : List String) (occurrence : MemoryOccurrence) : List MemoryAccess :=
  (names.filter (fun n => n != occurrence.name && Memory.mayOverlap n occurrence.name)).map
    (fun n => ⟨n, occurrence.use⟩)

/-- Add an implied access. Occurrences that the operation names itself keep their use. -/
def addImplied (named : List MemoryOccurrence) (implied : List MemoryOccurrence)
    (access : MemoryAccess) : List MemoryOccurrence :=
  if named.any (fun o => o.name == access.name) then implied else addMemory implied access

/-- Add the occurrences that follow from the names used anywhere in the list. -/
def withImplied (qubitNames memoryNames : List String) (instruction : Instruction) : Instruction :=
  let named := instruction.memory
  let implied := (named.flatMap (impliedAccesses memoryNames)).foldl (addImplied named) []
  { instruction with
    memory := named ++ implied
    qubits :=
      if instruction.operation.isGlobalReset then
        (qubitNames.map (fun q => ⟨q, .singleGate⟩)).foldl addQubit instruction.qubits
      else instruction.qubits }

/-- The report form of an instruction. -/
def toJson (instruction : Instruction) : Json :=
  .obj [("id", .nat instruction.id), ("line", .nat instruction.line),
    ("line_type", .str instruction.category.name), ("text", .str instruction.text),
    ("operation", instruction.operation.toJson), ("dead", .bool instruction.dead),
    ("classical", .list MemoryOccurrence.toJson instruction.memory),
    ("quantum", .list QubitOccurrence.toJson instruction.qubits)]

end Instruction

end TwoLane
