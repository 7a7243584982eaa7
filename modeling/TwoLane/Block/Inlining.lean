import TwoLane.ProgramError
import TwoLane.Block.Basic
import TwoLane.Block.Level

/-! # From levels to blocks

The code lines of a level fall into blocks: a label opens one, a jump, a halt or a call closes one. A call
is replaced by the blocks of the called circuit. Each instance of a level adds the lines of the
calls that lead to it to the names of its blocks, so two calls of a circuit share none. Blocks are filled one
after the other, those requested first coming first. A circuit cannot be entered again while one of its
calls is open, so the chains of calls are bounded and the filling ends.
-/

namespace TwoLane

/-- An instance of a level: the program, or a circuit at one call. -/
structure LevelInstance where
  level : Level
  /-- What the names of blocks of this instance end in. -/
  mark : String
  /-- The block behind the last line. -/
  exit : Nat
  /-- The actual qubits of the formal ones. -/
  bindings : Bindings
  /-- The circuit of the call. -/
  circuit : Option String
  deriving Inhabited

/-- A level instance together with those that called it, the innermost one first. -/
abbrev CallChain := List LevelInstance

namespace CallChain

/-- The nearest instance that defines a label on one of its code lines, from the inside, with the
    position of that line. -/
def findLabel? (label : String) : CallChain → Option (CallChain × String × Nat)
  | [] => none
  | inner :: outer =>
      match (inner.level.labelLine? label).bind inner.level.position? with
      | some position => some (inner :: outer, inner.mark, position)
      | none => findLabel? label outer

def isOpen (chain : CallChain) (circuit : String) : Bool :=
  chain.any (fun inner => inner.circuit == some circuit)

/-- The nearest definition of a circuit, from the inside. -/
def findCircuit? (name : String) : CallChain → Option Level
  | [] => none
  | inner :: outer =>
      match inner.level.circuit? name with
      | some body => some body
      | none => findCircuit? name outer

/-- The level that a call on a line enters. -/
def callee (chain : CallChain) (name : String) (line : Nat) : Except ProgramError Level :=
  if chain.isOpen name then .error (.recursiveCircuit name)
  else
    match chain.findCircuit? name with
    | some body => .ok body
    | none => .error (.undefinedCircuit name line)

end CallChain

/-- How a run of lines ends, with the position of the line that ends it. -/
inductive Ending where
  /-- Behind the last line of the level. -/
  | leave
  /-- At a line with a label, which opens a block of its own. -/
  | label (name : String) (position : Nat)
  | call (call : Call) (line position : Nat)
  | halt
  | jump (label : String) (line : Nat)
  | conditionalJump (label : String) (line position : Nat)
  deriving Repr, DecidableEq, Inhabited

namespace Level

/-- Follow code lines from a position up to the end of their block. The lines given are those from that
    position on. A label ends the block unless it stands on its first line. -/
def followRun (level : Level) : (isFirst : Bool) → (position : Nat) → List Nat → List Nat × Ending
  | _, _, [] => ([], .leave)
  | isFirst, position, line :: rest =>
      match (if isFirst then none else level.labelAt? line), level.callAt? line with
      | some name, _ => ([line], .label name position)
      | none, some call => ([], .call call line position)
      | none, none =>
          if level.haltsAt line then ([line], .halt)
          else
            match level.jumpAt? line, level.conditionalJumpAt? line with
            | some label, _ => ([line], .jump label line)
            | none, some label => ([line], .conditionalJump label line position)
            | none, none =>
                let further := followRun level false (position + 1) rest
                (line :: further.1, further.2)

def runFrom (level : Level) (position : Nat) : List Nat × Ending :=
  level.followRun true position (level.lines.drop position)

end Level

/-- A block to be filled from a position of a level instance on. -/
structure Filling where
  chain : CallChain
  block : Nat
  position : Nat
  deriving Inhabited

/-- The state of the construction. -/
structure Inlining where
  graph : BlockGraph
  waiting : List Filling
  /-- The blocks filled so far. -/
  filled : List Nat
  deriving Inhabited

namespace Inlining

/-- The block of a name, to be filled from a position on. -/
def request (state : Inlining) (name : String) (chain : CallChain) (position : Nat) :
    Nat × Inlining :=
  let (id, graph) := state.graph.request name
  (id, { state with graph := graph, waiting := state.waiting ++ [⟨chain, id, position⟩] })

/-- Lead a block on to another one. -/
def addBranch (state : Inlining) (source target : Nat) : Inlining :=
  { state with graph := state.graph.addBranch source target }

/-- The block behind a line that ends a block: one of its own, or what follows the whole level. -/
def following (state : Inlining) (kind : String) (chain : CallChain) (inner : LevelInstance)
    (line position : Nat) : Nat × Inlining :=
  if position + 1 < inner.level.lines.length then
    state.request (kind ++ toString line ++ inner.mark) chain (position + 1)
  else (inner.exit, state)

/-- The block that a jump on a line leads to. -/
def target (state : Inlining) (chain : CallChain) (label : String) (line : Nat) :
    Except ProgramError (Nat × Inlining) :=
  match chain.findLabel? label with
  | some (home, mark, position) => .ok (state.request (label ++ mark) home position)
  | none => .error (.undefinedLabel label line)

/-- The qubits that a call gives to the formal ones of the circuit. -/
def passQubits (formals : List String) (actuals : List String) (outer : Bindings) : Bindings :=
  Table.ofList ((formals.zip actuals).map (fun pair => (pair.1, Bindings.resolve outer pair.2)))

/-- Lead a block into a called circuit. -/
def enter (state : Inlining) (chain : CallChain) (inner : LevelInstance) (block : Nat) (call : Call)
    (line position : Nat) : Except ProgramError Inlining := do
  let (after, state) := state.following "return." chain inner line position
  let body ← chain.callee call.name line
  let mark := inner.mark ++ "@" ++ toString line
  let (entry, graph) := state.graph.request (call.name ++ mark)
  let callee : LevelInstance :=
    ⟨body, mark, after, passQubits body.formals call.qubits inner.bindings, some call.name⟩
  .ok { state with
    graph := graph.addBranch block entry
    waiting := state.waiting ++ [⟨callee :: chain, entry, 0⟩] }

/-- Lead a filled block on as its last line says. -/
def close (state : Inlining) (chain : CallChain) (inner : LevelInstance) (block : Nat) :
    Ending → Except ProgramError Inlining
  | .leave => .ok (state.addBranch block inner.exit)
  | .label name position =>
      let (target, state) := state.request (name ++ inner.mark) chain position
      .ok (state.addBranch block target)
  | .call call line position => state.enter chain inner block call line position
  | .halt => .ok (state.addBranch block BlockGraph.halt)
  | .jump label line => do
      let (target, state) ← state.target chain label line
      .ok (state.addBranch block target)
  | .conditionalJump label line position => do
      let (target, state) ← state.target chain label line
      let state := state.addBranch block target
      let (after, state) := state.following "after." chain inner line position
      .ok (state.addBranch block after)

def fill (state : Inlining) (filling : Filling) : Except ProgramError Inlining :=
  match filling.chain with
  | [] => .ok state
  | inner :: outer =>
      let run := inner.level.runFrom filling.position
      let graph := state.graph.modify filling.block
        (fun block => { block with lines := block.lines ++ run.1, bindings := inner.bindings })
      { state with graph := graph, filled := filling.block :: state.filled }.close
        (inner :: outer) inner filling.block run.2

/-- Take up the first waiting block; one that is filled already is left as it is. -/
def step (state : Inlining) : Except ProgramError Inlining :=
  match state.waiting with
  | [] => .ok state
  | filling :: rest =>
      if state.filled.contains filling.block then .ok { state with waiting := rest }
      else { state with waiting := rest }.fill filling

/-- Take up a number of waiting blocks, or fewer where none waits any more. -/
def steps : Nat → Inlining → Except ProgramError Inlining
  | 0, state => .ok state
  | bound + 1, state =>
      match state.waiting with
      | [] => .ok state
      | _ :: _ => do
          let next ← state.step
          steps bound next

/-- The start of the construction for a program. -/
def initial (level : Level) : Inlining where
  graph := .initial
  waiting := [⟨[⟨level, "", BlockGraph.halt, [], none⟩], BlockGraph.start, 0⟩]
  filled := [BlockGraph.halt]

end Inlining

namespace Level

mutual

def weight : Level → Nat
  | ⟨labels, _, _, _, circuits, _, lines, calls⟩ =>
      labels.length + lines.length + calls.length + weightOfAll circuits

/-- The weight of several circuits, themselves included. -/
def weightOfAll : List (String × Level) → Nat
  | [] => 0
  | (_, body) :: rest => 1 + weight body + weightOfAll rest

end

mutual

def circuitCount : Level → Nat
  | ⟨_, _, _, _, circuits, _, _, _⟩ => circuitCountOfAll circuits

/-- How many circuits are defined in several circuits, themselves included. -/
def circuitCountOfAll : List (String × Level) → Nat
  | [] => 0
  | (_, body) :: rest => 1 + circuitCount body + circuitCountOfAll rest

end

/-- More blocks than can be requested: a name is made from a label, line or circuit and from the lines of
    at most as many calls as there are circuits. -/
def fillingBound (level : Level) : Nat :=
  4 * Nat.pow (level.weight + 3) (level.circuitCount + 3)

end Level

/-- The block graph of a program. -/
def BlockGraph.ofLevel (level : Level) : Except ProgramError BlockGraph :=
  if level.lines.isEmpty then .ok (BlockGraph.initial.addBranch BlockGraph.start BlockGraph.halt)
  else (Inlining.steps level.fillingBound (.initial level)).map Inlining.graph

end TwoLane
