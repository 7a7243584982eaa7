import TwoLane.Block.Ranking

/-! # Lane views

A lane view is a run of lines of one lane. A block falls into segments at its control lines; in a
segment the quantum lines and the classical lines each form one view, and a control line is a view of its own.
-/

namespace TwoLane

/-- Where lines run. -/
inductive Lane where
  /-- On the quantum device, hybrid lines included. -/
  | quantum
  /-- On the controller. -/
  | classical
  /-- In the flow of control. -/
  | control
  deriving Repr, DecidableEq, Inhabited

namespace Lane

def ofCategory (category : Category) : Lane :=
  if category.isControl then .control
  else if category.onQuantumLane then .quantum
  else .classical

def name : Lane → String
  | .quantum => "Quantum"
  | .classical => "Classical"
  | .control => "Control"

end Lane

/-- Lines of one lane in one block, and the views that follow. -/
structure LaneView where
  parent : Nat
  lane : Lane
  lines : List Nat
  branches : List Nat
  deriving Repr, DecidableEq, Inhabited

namespace LaneView

/-- Cut classified lines into runs of one lane; the lines of the open segment are given. -/
def runs : (quantum classical : List Nat) → List (Nat × Lane) → List (Lane × List Nat)
  | quantum, classical, [] => [(.quantum, quantum), (.classical, classical)]
  | quantum, classical, (line, lane) :: rest =>
      match lane with
      | .quantum => runs (quantum ++ [line]) classical rest
      | .classical => runs quantum (classical ++ [line]) rest
      | .control =>
          (.quantum, quantum) :: (.classical, classical) :: (.control, [line]) :: runs [] [] rest

def lanesOf (lines : Classification) (block : Block) : List (Nat × Lane) :=
  block.lines.filterMap
    (fun line => (lines.category? line).map (fun category => (line, Lane.ofCategory category)))

def runsOf (lines : Classification) (block : Block) : List (Lane × List Nat) :=
  match (runs [] [] (lanesOf lines block)).filter (fun run => !run.2.isEmpty) with
  | [] => [(.quantum, [])]
  | kept => kept

/-- The views of one block, numbered from a first number on: each leads to the next one, and the last one
    leads on to the given views. -/
def chain (parent : Nat) (exits : List Nat) : Nat → List (Lane × List Nat) → List LaneView
  | _, [] => []
  | _, [(lane, lines)] => [⟨parent, lane, lines, exits⟩]
  | first, (lane, lines) :: next :: rest =>
      ⟨parent, lane, lines, [first + 1]⟩ :: chain parent exits (first + 1) (next :: rest)

/-- The number of the first view of each block, in rank order. -/
def firsts : Nat → List (List (Lane × List Nat)) → List Nat
  | _, [] => []
  | first, group :: rest => first :: firsts (first + group.length) rest

def split (ranked : RankedGraph) (lines : Classification) : List LaneView :=
  let groups := ranked.order.map (fun id => runsOf lines (ranked.graph.block id))
  let starts := firsts 0 groups
  let exitsOf (id : Nat) : List Nat :=
    ((ranked.graph.block id).branches.filterMap ranked.rank?).filterMap (fun rank => starts[rank]?)
  ((ranked.order.zip groups).zip starts).flatMap
    (fun entry => chain entry.1.1 (exitsOf entry.1.1) entry.2 entry.1.2)

/-- The report form of a view. -/
def toJson (view : LaneView) : Json :=
  .obj [("parent", .nat view.parent), ("lane", .str view.lane.name), ("lines", .nats view.lines),
    ("branches", .nats view.branches)]

end LaneView

end TwoLane
