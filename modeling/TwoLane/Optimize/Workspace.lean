import TwoLane.HybridProgram
import TwoLane.Optimize.Cost
import TwoLane.Optimize.Folding
import TwoLane.Optimize.Hybrid
import TwoLane.Optimize.Removal
import TwoLane.Schedule.Balanced

/-! # Workspaces

A workspace is what the steps of an optimization share: the lists, the hybrid maps found last if they still
hold, and the references that are read out. A change that fails leaves the workspace as far as it
had come.
-/

namespace TwoLane

/-- The state of an optimization. -/
structure Workspace where
  lists : List InstructionList
  /-- One map per list, or none at all if the last ones do not hold any more. -/
  hybrids : List HybridMap
  readout : List String
  deriving Inhabited

namespace Workspace

def ofLists (lists : List InstructionList) (readout : List String) : Workspace :=
  ⟨lists, [], readout⟩

def ofProgram (program : HybridProgram) : Workspace :=
  ofLists program.lists program.readout

/-- Whether any hybrid line is known. -/
def knowsHybrids (state : Workspace) : Bool :=
  state.hybrids.any (fun map => !map.isEmpty)

def forgetHybrids (state : Workspace) : Workspace :=
  { state with hybrids := [] }

def checkAlignment (state : Workspace) : Except OptimizeError Unit :=
  if state.hybrids.length = state.lists.length then .ok ()
  else .error (.countMismatch "hybrid dependency maps" state.lists.length state.hybrids.length)

/-- A change of a workspace that may fail on its way. -/
abbrev Change := Workspace → Workspace × Except OptimizeError Findings

/-- Find out what is live and mark dead instructions. -/
def markLiveness : Change := fun state =>
  let judged := Liveness.analyse state.lists state.readout
  let lists := (state.lists.zip judged).map (fun entry => Liveness.mark entry.1 entry.2)
  ({ state with lists := lists }, .ok (.liveness (Liveness.located lists judged)))

/-- Find out which values are known. -/
def propagateConstants : Change := fun state =>
  let result := Constants.propagate state.lists
  ({ state with lists := result.1 }, .ok (.constants result.2))

/-- Find out what hybrid lines depend on. -/
def findHybrids : Change := fun state =>
  let maps := state.lists.map HybridMap.ofList
  ({ state with hybrids := maps }, .ok (.hybrids (HybridMap.located state.lists maps)))

/-- Fold with the values known. -/
def foldConstants : Change := fun state =>
  let result := Folding.fold state.lists
  ({ state with lists := result.1 }, .ok (.folding result.2))

/-- The lines of several instructions in increasing order. -/
def linesOf (list : InstructionList) (ids : List Nat) : List Nat :=
  Sorted.ofList ((ids.filterMap list.get?).map Instruction.line)

/-- Remove dead code from lists, the first of which is at a given position; answers the lists and what was
    removed up to the first failure. -/
def removeDeadFrom (dead : DeadCode) : Nat → List InstructionList →
    List InstructionList × Except OptimizeError (List (Located (List Nat)))
  | _, [] => ([], .ok [])
  | index, list :: rest =>
      let ids := dead.toRemove index list
      if ids.isEmpty then
        let further := removeDeadFrom dead (index + 1) rest
        (list :: further.1, further.2)
      else
        match list.removeAll ids with
        | .error error => (list :: rest, .error (.program error))
        | .ok removed =>
            let further := removeDeadFrom dead (index + 1) rest
            (removed :: further.1, further.2.map (⟨index, list.name, linesOf list ids⟩ :: ·))

/-- Remove dead instructions and empty unreachable lists. -/
def removeDead : Change := fun state =>
  let dead := DeadCode.find state.lists state.readout
  let result := removeDeadFrom dead 0 state.lists
  ({ state with lists := result.1 }, result.2.map (fun removed => .deadCode removed dead.blocks))

/-- Install the order that a scheduler gives for a list; nothing means that the order stays. -/
def installOrder (index : Nat) (list : InstructionList) (order : List Nat) :
    Except OptimizeError (InstructionList × List (Located OrderChange)) :=
  if order.isEmpty then .ok (list, [])
  else do
    let reordered ← OptimizeError.lift (list.reorder order)
    .ok (reordered, [⟨index, list.name, ⟨list.texts, reordered.texts⟩⟩])

/-- Reorder lists, the first of which is at a given position, up to the first failure. -/
def reorderFrom (schedule : Nat → InstructionList → Except OptimizeError (List Nat)) :
    Nat → List InstructionList →
      List InstructionList × Except OptimizeError (List (Located OrderChange))
  | _, [] => ([], .ok [])
  | index, list :: rest =>
      match schedule index list >>= installOrder index list with
      | .error error => (list :: rest, .error error)
      | .ok installed =>
          let further := reorderFrom schedule (index + 1) rest
          (installed.1 :: further.1, further.2.map (installed.2 ++ ·))

def reorderWith (schedule : Nat → InstructionList → Except OptimizeError (List Nat)) : Change :=
  fun state =>
    let result := reorderFrom schedule 0 state.lists
    ({ state with lists := result.1 }, result.2.map .reordering)

/-- Start quantum work early. -/
def scheduleEarly : Change :=
  reorderWith (fun _ list => .ok (Schedule.earlyQuantum list))

/-- Put quantum work off. -/
def scheduleLate : Change :=
  reorderWith (fun _ list => .ok (Schedule.lateQuantum list))

/-- Balance the lanes around hybrid instructions. -/
def scheduleBalanced : Change := fun state =>
  match state.checkAlignment with
  | .error error => (state, .error error)
  | .ok _ =>
      reorderWith (fun index list => Schedule.balanced list ((state.hybrids[index]?).getD [])) state

/-- The cost of the lists without control instructions. -/
def metrics (state : Workspace) : Except OptimizeError Metrics :=
  (OptimizeError.lift (removeControl state.lists)).map (fun result => Metrics.measure result.1)

end Workspace

end TwoLane
