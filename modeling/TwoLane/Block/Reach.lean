/-! # Reachability

Nodes are numbers, and a graph is the function from a node to its successors. A bound limits how many
nodes are visited; any bound that is at least the number of reachable nodes gives them all.
-/

namespace TwoLane

namespace Reach

/-- The elements of the first list that are new: not in the second one and not repeated. -/
def fresh (candidates known : List Nat) : List Nat :=
  candidates.foldl (fun acc a => if known.contains a || acc.contains a then acc else acc ++ [a]) []

/-- Visit waiting nodes in turn; the successors not seen before wait behind the others. -/
def breadthFirst (successors : Nat → List Nat) : Nat → List Nat → List Nat → List Nat
  | 0, done, _ => done
  | _, done, [] => done
  | bound + 1, done, node :: waiting =>
      let known := done ++ node :: waiting
      breadthFirst successors bound (done ++ [node]) (waiting ++ fresh (successors node) known)

/-- The nodes reachable from a root, nearest ones first. -/
def fromRoot (successors : Nat → List Nat) (bound root : Nat) : List Nat :=
  breadthFirst successors bound [] [root]

/-- Visit a node and what is reachable from it, each node before its successors and only once. -/
def depthFirst (successors : Nat → List Nat) : Nat → List Nat → Nat → List Nat
  | 0, done, _ => done
  | bound + 1, done, node =>
      if done.contains node then done
      else (successors node).foldl (depthFirst successors bound) (done ++ [node])

/-- A path along successors from one node to another. -/
inductive Path (successors : Nat → List Nat) : Nat → Nat → Prop where
  | refl (node : Nat) : Path successors node node
  | step {first next last : Nat} :
      next ∈ successors first → Path successors next last → Path successors first last

end Reach

end TwoLane
