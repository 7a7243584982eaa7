import TwoLane.InstructionList.Basic

/-! # Emission

A schedule is a new order of a list. Control instructions keep their positions; each run of other
instructions between them is emitted anew, one instruction at a time. An instruction may be emitted once all
its direct predecessors are; of several such instructions the one with the lowest priority number comes first,
and of several of those the one that stood first.
-/

namespace TwoLane

namespace Schedule

/-- A part of an order. -/
inductive Piece where
  /-- A control instruction, which stays where it is. -/
  | fixed (id : Nat)
  /-- Instructions that may change places among themselves. -/
  | run (ids : List Nat)
  deriving Repr, DecidableEq, Inhabited

def closeRun (ids : List Nat) : List Piece :=
  if ids.isEmpty then [] else [.run ids]

/-- Cut instructions into pieces, given the run that is open. -/
def cut : (run : List Nat) → List Instruction → List Piece
  | run, [] => closeRun run
  | run, node :: rest =>
      if node.category.isControl then closeRun run ++ .fixed node.id :: cut [] rest
      else cut (run ++ [node.id]) rest

def pieces (list : InstructionList) : List Piece :=
  cut [] list.running

/-- The category of an instruction; an unknown one counts as control. -/
def categoryOf (list : InstructionList) (id : Nat) : Category :=
  ((list.get? id).map Instruction.category).getD .control

/-- Whether an instruction is a hybrid. -/
def isHybrid (list : InstructionList) (id : Nat) : Bool :=
  (categoryOf list id).isHybrid

/-- Emit an instruction unless it has been emitted. -/
def emit (emitted : List Nat) (id : Nat) : List Nat :=
  if emitted.contains id then emitted else emitted ++ [id]

def firstLeast (key : Nat → Nat) : List Nat → Option Nat
  | [] => none
  | a :: rest =>
      match firstLeast key rest with
      | none => some a
      | some b => if key a ≤ key b then some a else some b

def next? (list : InstructionList) (priority : Category → Nat) (pool emitted : List Nat) :
    Option Nat :=
  firstLeast (fun id => priority (categoryOf list id))
    ((list.executable emitted (fun _ => true)).filter (fun id => pool.contains id))

def emitReady (list : InstructionList) (priority : Category → Nat) (pool : List Nat) :
    Nat → List Nat → List Nat
  | 0, emitted => emitted
  | bound + 1, emitted =>
      match next? list priority pool emitted with
      | some id => emitReady list priority pool bound (emit emitted id)
      | none => emitted

/-- Emit all instructions of a pool. Those that never become ready, because a chain leads out of the
    list, come last in their old order. -/
def drain (list : InstructionList) (priority : Category → Nat) (pool emitted : List Nat) :
    List Nat :=
  pool.foldl emit (emitReady list priority pool pool.length emitted)

/-- A new order, or nothing if it is the old one. -/
def orNothing (list : InstructionList) (order : List Nat) : List Nat :=
  if order = list.order then [] else order

end Schedule

end TwoLane
