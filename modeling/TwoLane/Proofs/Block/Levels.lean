import Mathlib.Data.String.Basic
import TwoLane.Proofs.Block.Place

/-! # Levels of trees

The level of a program, and those of the circuits in it, are well formed: a label is put down once, and code lines
come in increasing order.
-/

namespace TwoLane.Level

open Sorted (Increasing)

theorem recordFlow_keeps (visible : List String) (level : Level) (node : Tree) :
    (level.recordFlow visible node).lines = level.lines ∧ (level.recordFlow visible node).circuits = level.circuits ∧
      (Increasing (level.labels.map Prod.fst) → Increasing ((level.recordFlow visible node).labels.map Prod.fst)) := by
  unfold recordFlow
  split
  · dsimp only
    split
    · exact ⟨rfl, rfl, fun labels => labels⟩
    · refine ⟨rfl, rfl, fun labels => ?_⟩
      rw [Table.map_fst_put]
      exact Sorted.increasing_insert labels
  all_goals try exact ⟨rfl, rfl, fun labels => labels⟩
  split <;> exact ⟨rfl, rfl, fun labels => labels⟩

theorem wellFormed_ofNodes (visible formals : List String) {circuits : List (String × Level)}
    (bodies : ∀ entry ∈ circuits, entry.2.WellFormed) (nodes : List Tree) :
    (ofNodes visible formals circuits nodes).WellFormed := by
  have through : ∀ (nodes : List Tree) (level : Level), Increasing (level.labels.map Prod.fst) →
      (nodes.foldl (recordFlow visible) level).lines = level.lines ∧
        (nodes.foldl (recordFlow visible) level).circuits = level.circuits ∧
        Increasing ((nodes.foldl (recordFlow visible) level).labels.map Prod.fst) := by
    intro nodes
    induction nodes with
    | nil => exact fun _ labels => ⟨rfl, rfl, labels⟩
    | cons node rest ih =>
        intro level labels
        obtain ⟨lines, circuits, keeps⟩ := recordFlow_keeps visible level node
        obtain ⟨lines', circuits', labels'⟩ := ih _ (keeps labels)
        exact ⟨lines'.trans lines, circuits'.trans circuits, labels'⟩
  obtain ⟨lines, circuits', labels⟩ := through nodes
    { ofLines ((nodes.filter Tree.isLeaf).map Tree.line) with
      formals := formals, circuits := Table.ofList circuits } Sorted.increasing_nil
  refine .intro labels.nodup ?_ ?_
  · refine Sorted.Increasing.nodup ?_
    rw [ofNodes, lines]
    exact Sorted.increasing_ofList _
  · intro name body member
    rw [ofNodes, circuits'] at member
    exact bodies _ (Table.mem_of_mem_ofList member)

/-- What holds of empty levels, and of the level of nodes where it holds of the circuits in it, holds of the levels of
    all bodies, each below the levels that define what it inherits. -/
theorem ofBody_induction {motive : List String → Level → Prop}
    (empty : ∀ visible formals, motive visible { ofLines [] with formals := formals })
    (nodes : ∀ (inherited formals : List String) (children : List Tree) (visible : List String),
      visible = Sorted.union inherited ((definitionsOfAll children).map circuitName) →
      (∀ entry ∈ circuitsOfAll visible children, motive visible entry.2) →
      motive inherited (ofNodes visible formals (circuitsOfAll visible children) (ownNodesOfAll children)))
    (inherited formals : List String) (body : Tree) : motive inherited (ofBody inherited formals body) := by
  refine ofBody.induct (fun inherited formals body => motive inherited (ofBody inherited formals body))
    (fun visible nodes => ∀ entry ∈ circuitsOfAll visible nodes, motive visible entry.2)
    (fun visible node => ∀ entry ∈ circuitsOf visible node, motive visible entry.2)
    (fun visible formals nodes => motive visible (bodyLevel visible formals nodes))
    ?_ ?_ ?_ ?_ ?_ ?_ ?_ ?_ inherited formals body
  · intro inherited formals line rule label children visible bodies
    rw [ofBody]
    exact nodes inherited formals children visible rfl bodies
  · intro visible line label children definition formals body entry member
    rw [circuitsOf, if_pos rfl] at member
    rw [List.mem_singleton.mp member]
    exact body
  · intro visible line rule label children other bodies entry member
    rw [circuitsOf, if_neg other] at member
    exact bodies entry member
  · intro visible entry member
    rw [circuitsOfAll] at member
    cases member
  · intro visible node rest first further entry member
    rw [circuitsOfAll] at member
    exact (List.mem_append.mp member).elim (first entry) (further entry)
  · intro visible formals
    rw [bodyLevel]
    exact empty visible formals
  · intro visible formals node rest isBody body
    rw [bodyLevel, if_pos isBody]
    exact body
  · intro visible formals node rest other further
    rw [bodyLevel, if_neg other]
    exact further

theorem wellFormed_ofBody (inherited formals : List String) (body : Tree) :
    (ofBody inherited formals body).WellFormed := by
  refine ofBody_induction (motive := fun _ level => level.WellFormed) ?_ ?_ inherited formals body
  · exact fun _ _ => .intro List.nodup_nil List.nodup_nil (fun none => by cases none)
  · exact fun _ formals _ visible _ bodies => wellFormed_ofNodes visible formals bodies _

theorem wellFormed_ofTree (root : Tree) : (ofTree root).WellFormed :=
  wellFormed_ofBody [] [] root

end TwoLane.Level
