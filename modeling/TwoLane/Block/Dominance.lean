import TwoLane.Block.Basic

/-! # Dominance

In a region a block is dominated by the other blocks on every way from the root of the region to it. These are found in
rounds: what dominates a block so far is what all its predecessors agree on, each of them adding itself, where a
predecessor that no round has come to yet has no say. The rounds end with the first one that changes nothing.
-/

namespace TwoLane

/-- The dominators found so far. A block that no round has come to is missing. -/
abbrev Dominance := Table Nat (List Nat)

namespace Dominance

/-- Let one more predecessor of a block say what may dominate the block. -/
def agree (known : Dominance) (found : Option (List Nat)) (predecessor : Nat) : Option (List Nat) :=
  match known.get? predecessor with
  | none => found
  | some outer =>
      let through := Sorted.insert predecessor outer
      match found with
      | none => some through
      | some others => some (others.filter (fun d => through.contains d))

/-- What the predecessors of a block agree on, if there is anything known about one of them. -/
def agreed (known : Dominance) (predecessors : List Nat) : Option (List Nat) :=
  predecessors.foldl known.agree none

/-- Renew the dominators of a block, and note whether they change. -/
def visit (predecessors : Nat → List Nat) (state : Dominance × Bool) (id : Nat) : Dominance × Bool :=
  match state.1.agreed (predecessors id) with
  | none => state
  | some found => if state.1.get? id = some found then state else (state.1.put id found, true)

/-- Renew the dominators of some blocks, round by round, until a round changes nothing. -/
def rounds (predecessors : Nat → List Nat) (ids : List Nat) : Nat → Dominance → Dominance
  | 0, known => known
  | bound + 1, known =>
      let next := ids.foldl (visit predecessors) (known, false)
      if next.2 then rounds predecessors ids bound next.1 else next.1

/-- More rounds than a region needs: every round but the last one comes to a new block, or takes a dominator from one. -/
def roundBound (members : List Nat) : Nat :=
  members.length * (members.length + 1) + 1

def of (known : Dominance) (id : Nat) : List Nat :=
  (known.get? id).getD []

end Dominance

namespace BlockGraph

def predecessorsIn (graph : BlockGraph) (members : List Nat) (id : Nat) : List Nat :=
  members.flatMap (fun other => ((graph.branches other).filter (fun target => target == id)).map (fun _ => other))

/-- The dominators in the region of a root. The root is dominated by none. -/
def dominance (graph : BlockGraph) (root : Nat) (members : List Nat) : Dominance :=
  Dominance.rounds (graph.predecessorsIn members) (members.filter (fun id => id != root))
    (Dominance.roundBound members) [(root, [])]

end BlockGraph

end TwoLane
