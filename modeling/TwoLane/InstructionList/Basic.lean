import TwoLane.ProgramError
import TwoLane.Block.Reach
import TwoLane.Instruction.Basic

/-! # Instruction lists

The instructions of a block keep their numbers for good; the order in which they run is a list of
numbers that may change. On each chain an instruction is linked to the nearest instructions before and after it
that touch the same resource. An instruction depends on those it can reach by links to the front.
-/

namespace TwoLane

/-- The instructions of one block. -/
structure InstructionList where
  /-- The block that the instructions come from. -/
  block : Nat
  name : String
  /-- All instructions ever in the list, by number. -/
  nodes : List Instruction
  /-- The numbers of the instructions that run, in their order. -/
  order : List Nat
  /-- The lists that may run next. -/
  successors : List Nat
  deriving Inhabited, BEq

namespace InstructionList

def lastBefore? (nodes : List Instruction) (position : Nat) (resource : Resource) : Option Nat :=
  ((List.range position).filter
    (fun i => ((nodes[i]?).map (fun n => n.resources.contains resource)).getD false)).getLast?

def firstAfter? (nodes : List Instruction) (position : Nat) (resource : Resource) : Option Nat :=
  (List.range nodes.length).find?
    (fun i => position < i &&
      ((nodes[i]?).map (fun n => n.resources.contains resource)).getD false)

/-- Link an instruction to its neighbours on each of its chains. -/
def link (nodes : List Instruction) (position : Nat) (instruction : Instruction) : Instruction :=
  instruction.resources.foldl
    (fun acc resource => acc.modifyLinks resource (fun links =>
      ⟨links.previous ++ (lastBefore? nodes position resource).toList,
        links.next ++ (firstAfter? nodes position resource).toList⟩))
    instruction

/-- The list of a block whose instructions run in the given order. -/
def ofNodes (block : Nat) (name : String) (nodes : List Instruction) : InstructionList :=
  let qubitNames := Sorted.ofList (nodes.flatMap (fun n => n.qubits.map QubitOccurrence.name))
  let memoryNames := Sorted.ofList (nodes.flatMap (fun n => n.memory.map MemoryOccurrence.name))
  let complete := nodes.map (Instruction.withImplied qubitNames memoryNames)
  let linked := complete.zipIdx.map
    (fun entry => { link complete entry.2 entry.1 with id := entry.2 })
  ⟨block, name, linked, List.range nodes.length, []⟩

def get? (list : InstructionList) (id : Nat) : Option Instruction :=
  list.nodes[id]?

def get (list : InstructionList) (id : Nat) : Except ProgramError Instruction :=
  match list.get? id with
  | some node => .ok node
  | none => .error (.unknownInstruction id)

def running (list : InstructionList) : List Instruction :=
  list.order.filterMap list.get?

/-- The number of instructions that run. -/
def size (list : InstructionList) : Nat :=
  list.order.length

def contains (list : InstructionList) (id : Nat) : Bool :=
  list.order.contains id

def modify (list : InstructionList) (id : Nat) (change : Instruction → Instruction) :
    InstructionList :=
  { list with nodes := list.nodes.modify id change }

def onLine? (list : InstructionList) (line : Nat) : Option Instruction :=
  list.running.find? (fun node => node.line == line)

/-- The direct predecessors of an instruction on all of its chains, in increasing order. -/
def predecessors (list : InstructionList) (id : Nat) : List Nat :=
  match list.get? id with
  | some node => Sorted.ofList node.previous
  | none => []

/-- The number of links to the front in the whole list. -/
def linkCount (list : InstructionList) : Nat :=
  (list.nodes.flatMap Instruction.previous).length

/-- The instructions that an instruction depends on, directly or through others, in increasing order. -/
def dependencies (list : InstructionList) (id : Nat) : List Nat :=
  Sorted.ofList
    (Reach.breadthFirst list.predecessors list.linkCount [] (list.predecessors id))

/-- Whether the direct predecessors of an instruction are all among the given ones. -/
def isReady (list : InstructionList) (scheduled : List Nat) (id : Nat) : Bool :=
  (list.predecessors id).all (fun d => scheduled.contains d)

def executable (list : InstructionList) (scheduled : List Nat) (accepts : Category → Bool) :
    List Nat :=
  list.order.filter (fun id =>
    !scheduled.contains id &&
      ((list.get? id).map (fun node => accepts node.category)).getD false &&
      list.isReady scheduled id)

/-- The source lines in running order. -/
def lines (list : InstructionList) : List Nat :=
  list.running.map Instruction.line

def texts (list : InstructionList) : List String :=
  list.running.map Instruction.text

/-- The report form of a list. -/
def toJson (list : InstructionList) : Json :=
  .obj [("block", .nat list.block), ("name", .str list.name),
    ("nodes", .list Instruction.toJson list.nodes), ("order", .nats list.order),
    ("successors", .nats list.successors)]

end InstructionList

end TwoLane
