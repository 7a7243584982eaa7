import TwoLane.Instruction.Operation
import TwoLane.Line.Classification

/-! # What a line touches

A classified line touches the memory references and the qubits of its operation. Naming a region touches each
of its elements and the other way round; a reset of all qubits touches every qubit.
-/

namespace TwoLane

/-- A classified line with the names it touches, in increasing order. -/
structure TouchedLine where
  line : Nat
  category : Category
  classical : List String
  quantum : List String
  /-- Whether the line resets every qubit. -/
  allQubits : Bool
  deriving Repr, DecidableEq, Inhabited

namespace TouchedLine

def touchesMemory (touched : TouchedLine) (name : String) : Bool :=
  touched.classical.any (fun other => Memory.mayOverlap other name)

def touchesQubit (touched : TouchedLine) (name : String) : Bool :=
  touched.allQubits || touched.quantum.contains name

def isEmpty (touched : TouchedLine) : Bool :=
  touched.classical.isEmpty && touched.quantum.isEmpty && !touched.allQubits

def ofLine? (lines : Classification) (bindings : Bindings) (line : Nat) : Option TouchedLine :=
  (Table.get? line lines).map (fun classified =>
    let operation := Operation.ofTree classified.node bindings
    ⟨line, classified.category,
      Sorted.ofList (operation.memoryAccesses.map MemoryAccess.name),
      Sorted.ofList (operation.qubitAccesses.map QubitAccess.name),
      operation.isGlobalReset⟩)

/-- The report form of a line with the lines that have to run before it, per name. -/
def toJson (touched : TouchedLine) (dependencies : Table String (List Nat)) : Json :=
  .obj [("line", .nat touched.line), ("line_type", .str touched.category.name),
    ("classical", .strings touched.classical), ("quantum", .strings touched.quantum),
    ("all_qubits", .bool touched.allQubits),
    ("dependencies", .obj (dependencies.map (fun entry => (entry.1, .nats entry.2))))]

end TouchedLine

end TwoLane
