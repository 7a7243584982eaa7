import TwoLane.InstructionList.Basic
import TwoLane.Optimize.Report

/-! # Liveness

A name is live where its value may still be used. Liveness flows backwards: behind a list live what is live in
front of the lists that may follow it, and the names that are read out. A live region keeps its elements live and
the other way round, but only a write of exactly a name ends its life. An instruction is dead when it
writes nothing that is live, touches no live qubit and does not steer the flow of control.
-/

namespace TwoLane

/-- The names that are live at a point. -/
structure LiveSet where
  memory : List String
  qubits : List String
  deriving Repr, DecidableEq, Inhabited

namespace LiveSet

def empty : LiveSet :=
  ⟨[], []⟩

def union (a b : LiveSet) : LiveSet :=
  ⟨Sorted.union a.memory b.memory, Sorted.union a.qubits b.qubits⟩

end LiveSet

/-- Whether an instruction is dead, and each of its occurrences. -/
structure InstructionLiveness where
  id : Nat
  dead : Bool
  resources : List ResourceLiveness
  deriving Repr, DecidableEq, Inhabited

namespace Liveness

/-- Whether a value written to a reference may be used. -/
def isUsed (live : LiveSet) (readout : List String) (name : String) : Bool :=
  live.memory.any (fun l => Memory.mayOverlap l name) ||
    readout.any (fun l => Memory.mayOverlap l name)

/-- Whether the occurrence writes a value that is not used. -/
def memoryDead (live : LiveSet) (readout : List String) (occurrence : MemoryOccurrence) : Bool :=
  occurrence.isAssignment && !isUsed live readout occurrence.name

def entanglesLive (live : LiveSet) (node : Instruction) : Bool :=
  node.qubits.any (fun o => o.use == .multiGate && live.qubits.contains o.name)

/-- Whether the state of the qubit is not used. The qubits of one gate live and die together. -/
def qubitDead (live : LiveSet) (node : Instruction) (occurrence : QubitOccurrence) : Bool :=
  if occurrence.use == .multiGate then !entanglesLive live node
  else !live.qubits.contains occurrence.name

def touchesNothing (node : Instruction) : Bool :=
  node.memory.isEmpty && node.qubits.isEmpty && !node.operation.isGlobalReset

def isDead (live : LiveSet) (readout : List String) (node : Instruction) : Bool :=
  !node.category.isControl && !touchesNothing node &&
    (if node.operation.isGlobalReset then live.qubits.isEmpty
      else node.qubits.all (qubitDead live node)) &&
    node.memory.all (fun o => !o.isAssignment || memoryDead live readout o)

def verdict (readout : List String) (node : Instruction) (live : LiveSet) : InstructionLiveness :=
  let dead := isDead live readout node
  ⟨node.id, dead,
    node.memory.map (fun o =>
      ⟨node.line, .memory o.name, if o.isAssignment then memoryDead live readout o else dead⟩) ++
    node.qubits.map (fun o =>
      ⟨node.line, .qubit o.name, qubitDead live node o || dead⟩)⟩

def namesOf (use : MemoryUse) (operation : Operation) : List String :=
  (operation.memoryAccesses.filter (fun a => a.use == use)).map MemoryAccess.name

/-- The references live before an instruction that is not dead. What it writes dies unless it is read as well;
    reads come from the operation, because an instruction may read what it writes. -/
def memoryBefore (node : Instruction) (live : List String) : List String :=
  let keepsTarget := node.operation.readsTarget
  let survivors :=
    if keepsTarget then live
    else (namesOf .assignment node.operation).foldl (fun acc name => Sorted.erase name acc) live
  let read := node.memory.filter (fun o => !o.isAssignment || keepsTarget)
  Sorted.union (Sorted.union survivors (namesOf .usage node.operation))
    (read.map MemoryOccurrence.name)

/-- The qubits live before an instruction that is not dead. A reset ends their life. -/
def qubitsBefore (node : Instruction) (live : List String) : List String :=
  let touched := node.qubits.map QubitOccurrence.name
  let survivors := if node.operation.isGlobalReset then [] else live
  if node.operation.isReset then touched.foldl (fun acc name => Sorted.erase name acc) survivors
  else Sorted.union survivors touched

def before (readout : List String) (node : Instruction) (live : LiveSet) : LiveSet :=
  if isDead live readout node then live
  else ⟨memoryBefore node live.memory, qubitsBefore node live.qubits⟩

def behind (readout : List String) (front : List LiveSet) (list : InstructionList) : LiveSet :=
  list.successors.foldl (fun acc s => acc.union ((front[s]?).getD .empty)) ⟨readout, []⟩

def inFront (readout : List String) (front : List LiveSet) (list : InstructionList) : LiveSet :=
  list.running.foldr (before readout) (behind readout front list)

/-- Visit the lists of the given positions in turn and renew what is live in front of them. -/
def renew (readout : List String) (lists : List InstructionList) :
    (front : List LiveSet) → List Nat → List LiveSet
  | front, [] => front
  | front, i :: rest =>
      match lists[i]? with
      | some list => renew readout lists (front.set i (inFront readout front list)) rest
      | none => renew readout lists front rest

/-- One round over all lists, the last one first. -/
def round (readout : List String) (lists : List InstructionList) (front : List LiveSet) :
    List LiveSet :=
  renew readout lists front (List.range lists.length).reverse

/-- Go on with rounds until one changes nothing. -/
def rounds (readout : List String) (lists : List InstructionList) :
    Nat → List LiveSet → List LiveSet
  | 0, front => front
  | bound + 1, front =>
      let next := round readout lists front
      if next = front then front else rounds readout lists bound next

/-- The names that an instruction brings in. -/
def broughtIn (node : Instruction) : List String :=
  node.memory.map MemoryOccurrence.name ++ node.operation.memoryAccesses.map MemoryAccess.name ++
    node.qubits.map QubitOccurrence.name

/-- More rounds than are needed: every round but the last one adds a name in front of some list. -/
def roundBound (readout : List String) (lists : List InstructionList) : Nat :=
  let names := lists.flatMap (fun list => list.running.flatMap broughtIn)
  lists.length * (readout.length + names.length) + 1

/-- What is live in front of each list. -/
def fixpoint (readout : List String) (lists : List InstructionList) : List LiveSet :=
  rounds readout lists (roundBound readout lists) (lists.map (fun _ => .empty))

/-- The liveness of instructions, given what is live behind the last one; answers what is live in front of them
    as well. -/
def judge (readout : List String) (live : LiveSet) :
    List Instruction → LiveSet × List InstructionLiveness
  | [] => (live, [])
  | node :: rest =>
      let further := judge readout live rest
      (before readout node further.1, verdict readout node further.1 :: further.2)

/-- The liveness of the running instructions of each list. -/
def analyse (lists : List InstructionList) (readout : List String) :
    List (List InstructionLiveness) :=
  let front := fixpoint readout lists
  lists.map (fun list => (judge readout (behind readout front list) list.running).2)

def deadIds (judged : List InstructionLiveness) : List Nat :=
  (judged.filter InstructionLiveness.dead).map InstructionLiveness.id

def isDeadId (judged : List InstructionLiveness) (id : Nat) : Bool :=
  (deadIds judged).contains id

def located (lists : List InstructionList) (judged : List (List InstructionLiveness)) :
    List (Located (List ResourceLiveness)) :=
  (lists.zip judged).zipIdx.map
    (fun entry => ⟨entry.2, entry.1.1.name, entry.1.2.flatMap InstructionLiveness.resources⟩)

def mark (list : InstructionList) (judged : List InstructionLiveness) : InstructionList :=
  judged.foldl
    (fun acc l => acc.modify l.id (fun node => { node with dead := l.dead })) list

end Liveness

end TwoLane
