import TwoLane.Proofs.Execution.Folding.Hybrid

/-! # Folding lists

Folding rewrites one running instruction after the other, and each of these steps keeps what a program does with the
list.
-/

namespace TwoLane.Execution

open InstructionList (Rewrite)

variable {list : InstructionList} {node : Instruction}

/-- What folding puts in the place of a running instruction does the same. -/
theorem foldNode_spec {id : Nat} (ordered : Ordered list) (running : id ∈ list.order)
    (found : list.nodes[id]? = some node) (isEntry : Bool) :
    ∃ node', Rewrite list (Folding.foldNode (.ofCategory node.category) list isEntry node).1 id node' ∧
      Replaces list node node' ∧ ActsAs list isEntry node node' := by
  have kept : ∃ node', Rewrite list list id node' ∧ Replaces list node node' ∧ ActsAs list isEntry node node' :=
    ⟨node, .refl ordered.chained found, .refl (ordered.covers running found), fun _ holds => ⟨rfl, holds⟩⟩
  cases rule : FoldRule.ofCategory node.category with
  | classical =>
      rw [Folding.foldNode]
      cases operation : node.operation with
      | classical opcode operands => exact foldClassical_spec ordered running found isEntry operation
      | _ =>
          unfold Folding.foldClassical
          rw [operation]
          exact kept
  | quantum => exact foldQuantum_spec ordered running found isEntry
  | hybrid =>
      have plain : node.category.isControl = false := by
        cases category : node.category with
        | control =>
            rw [category] at rule
            cases rule
        | classicalControl =>
            rw [category] at rule
            cases rule
        | _ => rfl
      rw [Folding.foldNode, Folding.foldHybrid]
      cases operation : node.operation with
      | gate gate params qubits => exact foldGate_spec ordered running found isEntry plain operation
      | measure qubit target =>
          cases target with
          | none => exact kept
          | some target => exact foldMeasurement_spec ordered running found isEntry plain operation
      | _ => exact kept
  | keep => exact kept

def foldStep (isEntry : Bool) (list : InstructionList) (id : Nat) : InstructionList :=
  match list.get? id with
  | some node => (Folding.foldNode (.ofCategory node.category) list isEntry node).1
  | none => list

theorem foldAll_fst (isEntry : Bool) (list : InstructionList) (ids : List Nat) :
    (Folding.foldAll isEntry list ids).1 = ids.foldl (foldStep isEntry) list := by
  induction ids generalizing list with
  | nil => rfl
  | cons id rest ih =>
      rw [Folding.foldAll, List.foldl_cons, foldStep]
      cases list.get? id with
      | none => exact ih list
      | some node => exact ih _

theorem foldList_spec (regular : Regular list) (index : Nat) :
    Keeps (index == 0) list (Folding.foldList index list).1 ∧ (Folding.foldList index list).1.order = list.order := by
  rw [Folding.foldList, foldAll_fst]
  refine keeps_foldl ?_ regular (fun _ running => running)
  intro list id regular running
  obtain ⟨node, found⟩ := regular.ordered.chained.exists_node running
  obtain ⟨node', rewrite, replaces, acts⟩ := foldNode_spec regular.ordered running found (index == 0)
  rw [foldStep, show list.get? id = some _ from found]
  exact ⟨keeps_of_rewrite regular running found rewrite replaces acts, rewrite.order⟩

end TwoLane.Execution
