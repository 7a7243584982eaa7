import TwoLane.Sorted
import TwoLane.Line.Category

/-! # Classified lines

The instruction nodes of a tree are found from the root downwards. Nothing inside an instruction is an
instruction again, except in the body of a circuit definition. The first instruction on a line owns the line.
-/

namespace TwoLane

/-- A line with an instruction: its category and the node that gave it. -/
structure ClassifiedLine where
  category : Category
  node : Tree
  deriving Inhabited

/-- The classified lines of a program. -/
abbrev Classification := Table Nat ClassifiedLine

namespace Classification

mutual

/-- The instruction nodes of a tree in source order. -/
def instructions : Tree → List Tree
  | ⟨line, rule, label, children⟩ =>
      if (Category.ofTree? ⟨line, rule, label, children⟩).isSome then
        ⟨line, rule, label, children⟩ ::
          (if rule = Rule.defCircuit.text then instructionsOfBody children else [])
      else instructionsOfAll children

/-- The instruction nodes of several trees. -/
def instructionsOfAll : List Tree → List Tree
  | [] => []
  | node :: rest => instructions node ++ instructionsOfAll rest

/-- The instruction nodes of the first circuit body among the children of a definition. -/
def instructionsOfBody : List Tree → List Tree
  | [] => []
  | node :: rest =>
      if node.isA Rule.circuitBody.text then instructions node else instructionsOfBody rest

end

/-- Give the line of an instruction node to it unless the line is taken. -/
def record (lines : Classification) (node : Tree) : Classification :=
  match Category.ofTree? node with
  | none => lines
  | some category =>
      if Table.contains node.line lines then lines
      else Table.put node.line ⟨category, node⟩ lines

def ofTree (root : Tree) : Classification :=
  (instructions root).foldl record []

def category? (lines : Classification) (line : Nat) : Option Category :=
  (Table.get? line lines).map ClassifiedLine.category

def node? (lines : Classification) (line : Nat) : Option Tree :=
  (Table.get? line lines).map ClassifiedLine.node

end Classification

end TwoLane
