import TwoLane.Optimize.Error
import TwoLane.Optimize.Report
import TwoLane.Schedule.OneSided

/-! # Balanced schedules

In front of each hybrid instruction runs what it depends on, and on the lane with less of that as much
independent work as the other lane has, and one more. The classical part comes first, so both lanes start
early and wait little for each other.
-/

namespace TwoLane.Schedule

/-- The instructions of a run that a hybrid instruction still waits for: those on the lines that the map
    gives and those it depends on. -/
def required (list : InstructionList) (mapped ids emitted : List Nat) (hybrid : Nat) : List Nat :=
  let needed := list.dependencies hybrid
  ids.filter (fun id =>
    !emitted.contains id && !isHybrid list id &&
      (((list.get? id).map (fun node => mapped.contains node.line)).getD false ||
        needed.contains id))

def isQuantum (list : InstructionList) (id : Nat) : Bool :=
  categoryOf list id == .quantum

/-- Whether instructions of a category fill the quantum lane, or else the classical one. -/
def fillsLane (quantum : Bool) (category : Category) : Bool :=
  !category.isHybrid && !category.isControl && (category == .quantum) == quantum

/-- Pull ready instructions of a run to one lane, at most a given number of them. -/
def pull (list : InstructionList) (quantum : Bool) (ids : List Nat) :
    Nat → List Nat → List Nat
  | 0, _ => []
  | bound + 1, assumed =>
      match (list.executable assumed (fillsLane quantum)).find? (fun id => ids.contains id) with
      | some id => id :: pull list quantum ids bound (assumed ++ [id])
      | none => []

/-- The instructions pulled in front of a hybrid one besides those required: on the lighter lane, up to one
    more than the other lane holds. -/
def extra (list : InstructionList) (ids emitted required : List Nat) : List Nat :=
  let quantum := required.countP (isQuantum list)
  let classical := required.length - quantum
  if quantum = classical then []
  else
    pull list (quantum < classical) ids (max quantum classical + 1 - min quantum classical)
      (emitted ++ required)

def emitHybrid (list : InstructionList) (map : HybridMap) (ids emitted : List Nat) (hybrid : Nat) :
    List Nat :=
  let mapped :=
    ((list.get? hybrid).bind (fun node => Table.get? node.line map)).getD []
  let required := required list mapped ids emitted hybrid
  let extra := extra list ids emitted required
  let pool := ids.filter (fun id => required.contains id || extra.contains id)
  emit (drain list classicalFirst pool emitted) hybrid

def emitBalanced (list : InstructionList) (map : HybridMap) (emitted : List Nat) :
    Piece → List Nat
  | .fixed id => emit emitted id
  | .run ids =>
      let emitted := (ids.filter (isHybrid list)).foldl (emitHybrid list map ids) emitted
      drain list classicalFirst (ids.filter (fun id => !emitted.contains id)) emitted

def hasHybridOn (list : InstructionList) (line : Nat) : Bool :=
  ((list.onLine? line).map (fun node => node.category.isHybrid)).getD false

/-- The order with balanced lanes, or nothing if that is the old order. Every line of the map has to hold a
    hybrid instruction. -/
def balanced (list : InstructionList) (map : HybridMap) : Except OptimizeError (List Nat) :=
  match (Table.keys map).find? (fun line => !hasHybridOn list line) with
  | some line => .error (.missingHybrid list.name line)
  | none => .ok (orNothing list ((pieces list).foldl (emitBalanced list map) []))

end TwoLane.Schedule
