import TwoLane.Optimize.Workspace
import TwoLane.Proofs.Execution.Passes

/-! # Analyses keep results

Propagation and the marks of liveness change nothing that runs. What propagation adds is true where all that was known
before is.
-/

namespace TwoLane.Execution

open Indexed (writtenNames)

variable {σ : Type} {device : Device σ} {list : InstructionList} {isEntry : Bool} {node : Instruction}
  {site : Site} {state : State σ}

theorem shape_annotate (list : InstructionList) (isEntry : Bool) (node : Instruction) :
    (Constants.annotate list isEntry node).shape = node.shape := by
  rw [← Instruction.shape_withoutFacts, Instruction.withoutFacts_annotate, Instruction.shape_withoutFacts]

theorem replaces_annotate (covers : Covers list node) (isEntry : Bool) :
    Replaces list node (Constants.annotate list isEntry node) where
  role := rfl
  resources := by
    rw [← Instruction.resources_shape, shape_annotate, Instruction.resources_shape]
    exact List.Subset.refl _
  covers := by
    refine covers.congr rfl ?_ ?_
    · simp [Constants.annotate, Constants.annotateMemory, Function.comp_def]
    · simp [Constants.annotate, Constants.annotateQubit, Function.comp_def]
  reaches := .of_same rfl (by rw [← Instruction.resources_shape, shape_annotate, Instruction.resources_shape])

/-- What propagation adds to an instruction is true. -/
theorem actsAs_annotate (covers : Covers list node) (distinct : node.resources.Nodup) (isEntry : Bool) :
    ActsAs list isEntry node (Constants.annotate list isEntry node) := by
  intro σ device site before known holds
  refine ⟨rfl, ?_, ?_, ?_, ?_⟩
  · intro o' member value isValue
    obtain ⟨o, there, rfl⟩ := List.mem_map.mp member
    rcases Option.or_eq_some_iff.mp isValue with new | ⟨_, old⟩
    · exact known.memoryAfter covers distinct site there new
    · exact holds.memory o there value old
  · intro o' member value isValue writes
    obtain ⟨o, there, rfl⟩ := List.mem_map.mp member
    rcases Option.or_eq_some_iff.mp isValue with new | ⟨_, old⟩
    · have own : o.name ∈ writtenNames node.operation := written_of_memoryAfter new writes
      exact own
    · exact holds.named o there value old writes
  · intro o' member state isState
    obtain ⟨o, there, rfl⟩ := List.mem_map.mp member
    rcases Option.or_eq_some_iff.mp isState with new | ⟨_, old⟩
    · exact qubit_exec_of_stateAfter (fun plain => covers.qubits plain o there)
        (fun _ _ looked => known.qubit looked) new
    · exact holds.after o there state old
  · intro notReset o' member state isState
    obtain ⟨o, there, rfl⟩ := List.mem_map.mp member
    rcases Option.or_eq_some_iff.mp isState with new | ⟨_, old⟩
    · exact known.qubit new
    · exact holds.before notReset o there state old

theorem keeps_propagate (regular : Regular list) (index : Nat) :
    Keeps (index == 0) list (Constants.propagateList index list).1 := by
  rw [Constants.propagateList, InstructionList.annotateAll_fst]
  refine (keeps_foldl ?_ regular (fun _ running => running)).1
  intro list id regular running
  have ordered := regular.ordered
  obtain ⟨node, found⟩ := ordered.chained.exists_node running
  have covers := ordered.covers running found
  have rewrite : InstructionList.Rewrite list
      (list.modify id (fun _ => Constants.annotate list (index == 0) node)) id
      (Constants.annotate list (index == 0) node) :=
    .first ordered.chained found (shape_annotate list (index == 0) _)
  rw [Constants.annotateAt, show list.get? id = some _ from found]
  exact ⟨keeps_of_rewrite regular running found rewrite (replaces_annotate covers _)
    (actsAs_annotate covers (ordered.chained.distinct found) _), rfl⟩

theorem keeps_mark (regular : Regular list) (isEntry : Bool) {judged : List InstructionLiveness}
    (running : ∀ liveness ∈ judged, liveness.id ∈ list.order) :
    Keeps isEntry list (Liveness.mark list judged) := by
  refine (keeps_foldl ?_ regular running).1
  intro list liveness regular running
  have ordered := regular.ordered
  obtain ⟨node, found⟩ := ordered.chained.exists_node running
  have covers := ordered.covers running found
  have rewrite : InstructionList.Rewrite list
      (list.modify liveness.id (fun node => { node with dead := liveness.dead })) liveness.id
      { node with dead := liveness.dead } :=
    .first ordered.chained found rfl
  refine ⟨keeps_of_rewrite regular running found rewrite ⟨rfl, List.Subset.refl _, ?_, .of_same rfl rfl⟩ ?_, rfl⟩
  · exact covers.congr rfl rfl rfl
  · intro σ device site before _ holds
    exact ⟨rfl, holds.memory, holds.named, holds.after, holds.before⟩

end TwoLane.Execution
