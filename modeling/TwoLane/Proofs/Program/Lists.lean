import TwoLane.HybridProgram
import TwoLane.Proofs.Constants.Truth
import TwoLane.Proofs.Execution.NewLists
import TwoLane.Proofs.Execution.Passes

/-! # The lists of a program

The list of a block runs a new instruction for each classified line of the block, in the order of the lines. An
instruction has the category of the node that it was read from, so conditional jumps are control instructions.
-/

namespace TwoLane

/-! ## Classified lines -/

/-- Recording instructions keeps what was there, or gives a line to one of them that stands on it. -/
theorem Classification.get?_foldl_record_cases {nodes : List Tree} {lines : Classification} {line : Nat}
    {classified : ClassifiedLine} (found : Table.get? line (nodes.foldl record lines) = some classified) :
    Table.get? line lines = some classified ∨ classified.node ∈ nodes ∧ classified.node.line = line ∧
      Category.ofTree? classified.node = some classified.category := by
  induction nodes generalizing lines with
  | nil => exact .inl found
  | cons node rest ih =>
      rcases ih found with before | ⟨member, same⟩
      · rw [record] at before
        split at before
        · exact .inl before
        · next category known =>
          split at before
          · exact .inl before
          · rw [Table.get?_put] at before
            split at before
            · next here =>
              cases before
              exact .inr ⟨List.mem_cons_self, here.symm, known⟩
            · exact .inl before
      · exact .inr ⟨List.mem_cons_of_mem _ member, same⟩

theorem Classification.get?_ofTree {root : Tree} {line : Nat} {classified : ClassifiedLine}
    (found : Table.get? line (Classification.ofTree root) = some classified) :
    classified.node ∈ instructions root ∧ classified.node.line = line ∧
      Category.ofTree? classified.node = some classified.category :=
  (get?_foldl_record_cases found).resolve_left (fun none => by cases none)

theorem Classification.category_of_get? {root : Tree} {line : Nat} {classified : ClassifiedLine}
    (found : Table.get? line (Classification.ofTree root) = some classified) :
    Category.ofTree? classified.node = some classified.category :=
  (get?_ofTree found).2.2

theorem isControl_of_condition {node : Tree} {category : Category} {bindings : Bindings}
    (known : Category.ofTree? node = some category)
    (decided : (Indexed.Machine.condition? (Operation.ofTree node bindings)).isSome = true) :
    category.isControl = true := by
  unfold Category.ofTree? at known
  unfold Operation.ofTree at decided
  cases kind : node.kind with
  | none =>
      rw [kind] at known
      cases known
  | some rule =>
      rw [kind] at known decided
      cases rule <;> first
        | (cases decided; done)
        | (cases known; rfl)

namespace InstructionList

variable {block id : Nat} {title : String} {nodes : List Instruction} {node : Instruction}

theorem new_ofNodes (found : (ofNodes block title nodes).nodes[id]? = some node) : ∃ new, nodes[id]? = some new ∧
    node.line = new.line ∧ node.category = new.category ∧ node.operation = new.operation := by
  obtain ⟨new, there, same⟩ := withoutLinks_ofNodes found
  have parts := congrArg (fun n : Instruction => (n.line, n.category, n.operation)) same
  simp only [Instruction.withoutLinks, Instruction.withImplied, Prod.mk.injEq] at parts
  exact ⟨new, there, parts⟩

theorem lines_ofNodes : (ofNodes block title nodes).lines = nodes.map Instruction.line := by
  have order : (ofNodes block title nodes).order = List.range (ofNodes block title nodes).nodes.length := by
    rw [order_ofNodes, length_ofNodes]
  rw [lines, Indexed.running_of_range order]
  refine List.ext_getElem? (fun id => ?_)
  rw [List.getElem?_map, List.getElem?_map]
  cases found : (ofNodes block title nodes).nodes[id]? with
  | none =>
      have outside : nodes.length ≤ id := by
        have length : (ofNodes block title nodes).nodes.length = nodes.length := length_ofNodes
        exact length ▸ List.getElem?_eq_none_iff.mp found
      rw [List.getElem?_eq_none outside]
  | some node =>
      obtain ⟨new, there, line, _⟩ := new_ofNodes found
      rw [there, Option.map_some, Option.map_some, line]

end InstructionList

namespace HybridProgram

open Execution InstructionList

variable {ranked : RankedGraph} {lines : Classification} {source : List String} {bindings : Bindings} {line id : Nat}
  {node : Instruction}

/-! ## Instructions of lines -/

/-- The instructions of a ranked block before they are linked. -/
def newNodes (ranked : RankedGraph) (lines : Classification) (source : List String) (id : Nat) : List Instruction :=
  (ranked.graph.block id).lines.filterMap (instruction? lines source (ranked.graph.block id).bindings)

theorem instruction?_eq_some (found : instruction? lines source bindings line = some node) :
    ∃ classified text, Table.get? line lines = some classified ∧ node = { Instruction.ofOperation line
      classified.category (Operation.ofTree classified.node bindings) with text := text } := by
  obtain ⟨classified, there, same⟩ := Option.map_eq_some_iff.mp found
  dsimp only at same
  split at same <;> exact ⟨classified, _, there, same.symm⟩

theorem isSome_instruction? : (instruction? lines source bindings line).isSome = Table.contains line lines := by
  rw [instruction?, Option.isSome_map]
  rfl

theorem line_instruction? (found : instruction? lines source bindings line = some node) : node.line = line := by
  obtain ⟨_, _, _, rfl⟩ := instruction?_eq_some found
  rfl

theorem isNew_newNodes : ∀ node ∈ newNodes ranked lines source id, node.IsNew := by
  intro node member
  obtain ⟨line, _, found⟩ := List.mem_filterMap.mp member
  obtain ⟨classified, _, _, rfl⟩ := instruction?_eq_some found
  have new := Instruction.isNew_ofOperation line classified.category
    (Operation.ofTree classified.node (ranked.graph.block id).bindings)
  exact ⟨new.memory, new.qubits⟩

theorem map_line_newNodes : (newNodes ranked lines source id).map Instruction.line =
    (ranked.graph.block id).lines.filter (fun line => Table.contains line lines) := by
  rw [newNodes]
  induction (ranked.graph.block id).lines with
  | nil => rfl
  | cons line rest ih =>
      rw [List.filterMap_cons, List.filter_cons, ← isSome_instruction?]
      cases found : instruction? lines source (ranked.graph.block id).bindings line with
      | none => exact ih
      | some node => exact congrArg₂ List.cons (line_instruction? found) ih

/-! ## Lists of blocks -/

theorem lines_listOf (ranked : RankedGraph) (lines : Classification) (source : List String) (id : Nat) :
    (listOf ranked lines source id).lines =
      (ranked.graph.block id).lines.filter (fun line => Table.contains line lines) := by
  change (ofNodes id (ranked.graph.block id).name (newNodes ranked lines source id)).lines = _
  rw [lines_ofNodes, map_line_newNodes]

theorem new_listOf {i : Nat} (found : (listOf ranked lines source id).nodes[i]? = some node) :
    ∃ new, (newNodes ranked lines source id)[i]? = some new ∧
      node.line = new.line ∧ node.category = new.category ∧ node.operation = new.operation :=
  new_ofNodes (show (ofNodes id (ranked.graph.block id).name (newNodes ranked lines source id)).nodes[i]? = _ from found)

theorem regular_listOf (categories : ∀ {line classified}, Table.get? line lines = some classified →
    Category.ofTree? classified.node = some classified.category) (distinct : (ranked.graph.block id).lines.Nodup) :
    Regular (listOf ranked lines source id) where
  ordered := (ordered_ofNodes isNew_newNodes).withSuccessors _
  steered := by
    intro number _ node found decided
    obtain ⟨new, there, _, category, operation⟩ := new_listOf found
    obtain ⟨line, _, read⟩ := List.mem_filterMap.mp (List.mem_of_getElem? there)
    obtain ⟨classified, _, known, rfl⟩ := instruction?_eq_some read
    rw [operation] at decided
    rw [category]
    exact isControl_of_condition (categories known) decided
  lines := by
    intro i j a b _ _ iFound jFound same
    obtain ⟨a', iThere, aLine, _⟩ := new_listOf iFound
    obtain ⟨b', jThere, bLine, _⟩ := new_listOf jFound
    have nodup : ((newNodes ranked lines source id).map Instruction.line).Nodup :=
      map_line_newNodes ▸ distinct.filter _
    have inside : i < ((newNodes ranked lines source id).map Instruction.line).length := by
      rw [List.length_map]
      exact (List.getElem?_eq_some_iff.mp iThere).1
    refine (List.getElem?_inj inside nodup).mp ?_
    rw [List.getElem?_map, List.getElem?_map, iThere, jThere, Option.map_some, Option.map_some, ← aLine, ← bLine, same]

end HybridProgram

end TwoLane
