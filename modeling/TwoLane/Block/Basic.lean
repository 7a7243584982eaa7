import TwoLane.Instruction.Operation

/-! # Block graphs

A block is a run of code lines that is entered at its first line and left at its last one. Blocks refer to
each other by their position in the graph. Two blocks are in every graph: the entry, and the exit, which
holds no lines and leads nowhere.
-/

namespace TwoLane

structure Block where
  /-- The label that opens the block, or a name made for it. -/
  name : String
  /-- The code lines in the order in which they run. -/
  lines : List Nat
  /-- Where the block leads: a jump and what follows it, in this order, where the jump is conditional. -/
  branches : List Nat
  /-- The branches of a loop condition, led to copies of their targets. -/
  loopBack : List Nat
  /-- The place of the block in the order of all ranked blocks. -/
  rank : Option Nat
  /-- The blocks on every path from the start of the region, in increasing order. -/
  dominators : List Nat
  /-- The actual qubits of the formal ones, in an inlined circuit body. -/
  bindings : Bindings
  /-- The block that this one is a copy of. -/
  copiedFrom : Option Nat
  deriving Inhabited, Repr, DecidableEq

namespace Block

/-- A block without lines and branches. -/
def named (name : String) : Block :=
  ⟨name, [], [], [], none, [], [], none⟩

def lastLine? (block : Block) : Option Nat :=
  block.lines.getLast?

/-- The blocks to which control, and with it every value, flows. -/
def flow (block : Block) : List Nat :=
  block.branches ++ block.loopBack

/-- The report form of a block. -/
def toJson (block : Block) : Json :=
  .obj [("name", .str block.name), ("lines", .nats block.lines), ("branches", .nats block.branches),
    ("loop_back", .nats block.loopBack), ("rank", .option .nat block.rank),
    ("dominators", .nats block.dominators),
    ("bindings", .obj (block.bindings.map (fun entry => (entry.1, .str entry.2)))),
    ("origin", .option .nat block.copiedFrom)]

end Block

/-- The blocks of a program. -/
structure BlockGraph where
  blocks : List Block
  deriving Inhabited, Repr, DecidableEq

namespace BlockGraph

/-- The position of the entry. -/
def start : Nat := 0

/-- The position of the exit. -/
def halt : Nat := 1

/-- The graph that holds only the entry and the exit, not linked yet. -/
def initial : BlockGraph :=
  ⟨[.named "start", .named "halt"]⟩

def size (graph : BlockGraph) : Nat :=
  graph.blocks.length

/-- The block at a position; beyond the last one there is nothing. -/
def block (graph : BlockGraph) (id : Nat) : Block :=
  (graph.blocks[id]?).getD (.named "")

def idOf? (graph : BlockGraph) (name : String) : Option Nat :=
  graph.blocks.findIdx? (fun block => block.name == name)

def branches (graph : BlockGraph) (id : Nat) : List Nat :=
  (graph.block id).branches

def branchNames (graph : BlockGraph) (id : Nat) : List String :=
  (graph.branches id).map (fun target => (graph.block target).name)

def predecessors (graph : BlockGraph) (id : Nat) : List Nat :=
  (List.range graph.size).filter (fun source => (graph.branches source).contains id)

def modify (graph : BlockGraph) (id : Nat) (change : Block → Block) : BlockGraph :=
  ⟨graph.blocks.modify id change⟩

/-- Lead a block on to another one. -/
def addBranch (graph : BlockGraph) (source target : Nat) : BlockGraph :=
  graph.modify source (fun block => { block with branches := block.branches ++ [target] })

def request (graph : BlockGraph) (name : String) : Nat × BlockGraph :=
  match graph.idOf? name with
  | some id => (id, graph)
  | none => (graph.size, ⟨graph.blocks ++ [.named name]⟩)

/-- The report form of a graph. -/
def toJson (graph : BlockGraph) : Json :=
  .obj [("blocks", .list Block.toJson graph.blocks), ("start", .nat start), ("halt", .nat halt)]

end BlockGraph

end TwoLane
