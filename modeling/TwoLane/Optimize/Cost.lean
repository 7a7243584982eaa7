import TwoLane.InstructionList.Basic

/-! # Cost

The quantum device and the controller run side by side and meet at every hybrid instruction. A segment
between two hybrid instructions takes as long as its busier lane, and a hybrid instruction takes one unit.
-/

namespace TwoLane

/-- The wall time of instructions behind a hybrid one, with the load of both lanes since then. -/
def wallTimeFrom : (quantum classical : Nat) → List Category → Nat
  | quantum, classical, [] => max quantum classical
  | quantum, classical, category :: rest =>
      if category.isHybrid then max quantum classical + 1 + wallTimeFrom 0 0 rest
      else if category.onQuantumLane then wallTimeFrom (quantum + 1) classical rest
      else wallTimeFrom quantum (classical + 1) rest

/-- The wall time of a list. -/
def InstructionList.wallTime (list : InstructionList) : Nat :=
  wallTimeFrom 0 0 (list.running.map Instruction.category)

/-- The cost of a program. -/
structure Metrics where
  instructions : Nat
  /-- The instructions on the quantum lane, hybrid ones included. -/
  quantumInstructions : Nat
  wallTime : Nat
  deriving Repr, DecidableEq, Inhabited

namespace Metrics

def ofList (list : InstructionList) : Metrics where
  instructions := list.size
  quantumInstructions := list.running.countP (fun node => node.category.onQuantumLane)
  wallTime := list.wallTime

/-- The cost of two parts together. -/
def add (a b : Metrics) : Metrics where
  instructions := a.instructions + b.instructions
  quantumInstructions := a.quantumInstructions + b.quantumInstructions
  wallTime := a.wallTime + b.wallTime

/-- The cost of several lists. -/
def measure (lists : List InstructionList) : Metrics :=
  lists.foldl (fun acc list => acc.add (ofList list)) ⟨0, 0, 0⟩

/-- The report form of a cost. -/
def toJson (metrics : Metrics) : Json :=
  .obj [("instruction_count", .nat metrics.instructions),
    ("quantum_instruction_count", .nat metrics.quantumInstructions),
    ("wall_time", .nat metrics.wallTime)]

end Metrics

end TwoLane
