import TwoLane.Schedule.Emission

/-! # One-sided schedules

One schedule starts quantum work as early as the chains allow. The other one runs only what the first
hybrid instruction needs and then puts quantum work off as long as it can.
-/

namespace TwoLane.Schedule

def quantumFirst (category : Category) : Nat :=
  if category.isHybrid then 0 else if category = .quantum then 1 else 2

def classicalFirst : Category → Nat
  | .classical => 0
  | .quantum => 1
  | _ => 2

/-- Classical instructions first, then hybrid ones, then quantum ones. -/
def quantumLast (category : Category) : Nat :=
  if category = .classical then 0 else if category.isHybrid then 1 else 2

def emitEarly (list : InstructionList) (emitted : List Nat) : Piece → List Nat
  | .fixed id => emit emitted id
  | .run ids => drain list quantumFirst ids emitted

/-- The order with quantum work as early as possible, or nothing if that is the old order. -/
def earlyQuantum (list : InstructionList) : List Nat :=
  orNothing list ((pieces list).foldl (emitEarly list) [])

def emitFirstHybrid (list : InstructionList) (emitted ids : List Nat) : List Nat :=
  match ids.find? (isHybrid list) with
  | some first =>
      let needed := list.dependencies first
      emit (drain list classicalFirst (ids.filter (fun id => needed.contains id)) emitted) first
  | none => emitted

def emitLate (list : InstructionList) (emitted : List Nat) : Piece → List Nat
  | .fixed id => emit emitted id
  | .run ids => drain list quantumLast ids (emitFirstHybrid list emitted ids)

/-- The order with quantum work as late as possible, or nothing if that is the old order. -/
def lateQuantum (list : InstructionList) : List Nat :=
  orNothing list ((pieces list).foldl (emitLate list) [])

end TwoLane.Schedule
