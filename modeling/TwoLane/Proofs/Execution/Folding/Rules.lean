import TwoLane.Proofs.Execution.Folding.Values
import TwoLane.Proofs.Execution.Passes
import TwoLane.Proofs.Execution.Rewriting

/-! # Folding classical instructions

An instruction takes the place of another one if it has the same role, touches nothing new and does the same where
all that is known holds. A folded classical instruction does.
-/

namespace TwoLane.Execution

open Indexed (writtenNames usedNames)
open InstructionList (Rewrite)

variable {σ : Type} {device : Device σ} {list : InstructionList} {isEntry : Bool} {node : Instruction}
  {site : Site} {state : State σ}

/-! ## New operations -/

/-- An instruction with another operation on fewer references, without what that does not name. -/
def renewed (node : Instruction) (operation : Operation) (names : List String) : Instruction :=
  (node.setOperation operation).dropMemory names

theorem resources_renewed (node : Instruction) (operation : Operation) (names : List String) :
    (renewed node operation names).resources.Sublist node.resources :=
  (List.filter_sublist.map _).append (.refl _)

/-- The new operation is covered where the references that go are not those it names. -/
theorem Covers.renewed (covers : Covers list node) {operation : Operation} {names : List String}
    (touches : touched operation ⊆ touched node.operation)
    (kept : ∀ name ∈ names, Resource.memory name ∉ touched operation)
    (written : writtenNames operation ⊆ writtenNames node.operation)
    (qubits : operation.qubitAccesses = node.operation.qubitAccesses)
    (global : operation.isGlobalReset = node.operation.isGlobalReset) :
    Covers list (renewed node operation names) where
  touches := by
    intro resource member
    have there := covers.touches resource (touches member)
    rcases List.mem_append.mp there with memory | qubit
    · obtain ⟨o, own, rfl⟩ := List.mem_map.mp memory
      refine List.mem_append_left _ (List.mem_map.mpr ⟨o, List.mem_filter.mpr ⟨own, ?_⟩, rfl⟩)
      have stays : o.name ∉ names := fun goes => kept o.name goes member
      simpa using stays
    · exact List.mem_append_right _ qubit
  writes := by
    intro name member
    obtain ⟨o, own, rfl, writes⟩ := covers.writes name (written member)
    refine ⟨o, List.mem_filter.mpr ⟨own, ?_⟩, rfl, writes⟩
    have stays : o.name ∉ names := fun goes => kept o.name goes (touched_of_written member)
    simpa using stays
  qubits := by
    intro plain o member
    change ∃ a ∈ operation.qubitAccesses, _
    rw [qubits]
    exact covers.qubits (global.symm.trans plain) o member
  resets := by
    intro isGlobal q id holds
    have there := covers.resets (global.symm.trans isGlobal) q id holds
    rcases List.mem_append.mp there with memory | qubit
    · obtain ⟨_, _, same⟩ := List.mem_map.mp memory
      cases same
    · exact List.mem_append_right _ qubit

theorem HoldsAt.renewed {before after : State σ} (holds : HoldsAt device node before after)
    {operation : Operation} (names : List String)
    (plain : operation.isReset = node.operation.isReset)
    (written : writtenNames node.operation ⊆ writtenNames operation) :
    HoldsAt device (renewed node operation names) before after :=
  holds.fewer (fun notReset => plain.symm.trans notReset) written
    (fun o member => ⟨o, (List.mem_filter.mp member).1, rfl⟩) (fun o member => ⟨o, member, rfl⟩)

theorem rewrite_renewed {list after : InstructionList} {id : Nat} {node node' : Instruction}
    (rewrite : Rewrite list after id node') (running : id ∈ list.order) (found : list.nodes[id]? = some node)
    (chained : list.Chained) (resources : node'.resources = node.resources) (operation : Operation)
    (operands : List Operand) :
    Rewrite list
      (Folding.detachAll (after.modify id (fun n => n.setOperation operation)) id (Folding.unnamed node operands))
      id (renewed node' operation (Folding.unnamed node operands)) := by
  have distinct := chained.distinct found
  have names : (node.memory.map MemoryOccurrence.name).Nodup := by
    have first : (node.memory.map (Resource.memory ∘ MemoryOccurrence.name)).Nodup :=
      (List.nodup_append.mp distinct).1
    rw [← List.map_map] at first
    exact first.of_map
  have changed : Rewrite list (after.modify id (fun n => n.setOperation operation)) id
      (node'.setOperation operation) := rewrite.modify (fun _ => rfl) (fun _ => rfl)
  refine changed.detachAll running (names.filter _) ?_
  intro name member
  obtain ⟨o, own, same⟩ := List.mem_map.mp (List.mem_filter.mp member).1
  change Resource.memory name ∈ node'.resources
  rw [resources]
  exact List.mem_append_left _ (List.mem_map.mpr ⟨o, own, congrArg Resource.memory same⟩)

theorem reaches_renewed {node' : Instruction} {operation : Operation} {operands : List Operand}
    (resources : node'.resources = node.resources) (touches : touched operation ⊆ touched node.operation)
    (named : ∀ name, Resource.memory name ∈ touched operation → name ∈ operands.flatMap Operand.addresses) :
    Reaches node (renewed node' operation (Folding.unnamed node operands)) where
  names := fun a member => memory_mem_touched.mp (touches (memory_mem_touched.mpr ⟨a, member, rfl⟩))
  touches := by
    intro a member name there overlaps
    rw [← resources] at there
    rcases List.mem_append.mp there with memory | qubit
    · obtain ⟨o, own, same⟩ := List.mem_map.mp memory
      cases same
      refine List.mem_append_left _ (List.mem_map.mpr ⟨o, List.mem_filter.mpr ⟨own, ?_⟩, rfl⟩)
      rw [Bool.not_eq_true', ← Bool.not_eq_true, List.contains_iff_mem]
      intro goes
      have apart := (List.mem_filter.mp goes).2
      simp only [Bool.not_eq_true', List.any_eq_false] at apart
      exact apart a.name (named a.name (memory_mem_touched.mpr ⟨a, member, rfl⟩)) overlaps
    · obtain ⟨_, _, same⟩ := List.mem_map.mp qubit
      cases same

theorem not_named_of_unnamed {operands : List Operand} {name : String}
    (member : name ∈ Folding.unnamed node operands) : name ∉ operands.flatMap Operand.addresses := by
  intro named
  have apart := (List.mem_filter.mp member).2
  simp only [Bool.not_eq_true', List.any_eq_false] at apart
  exact apart name named (Memory.mayOverlap_self name)

/-- A new operation takes the place of the old one where it touches no more, writes no more and decides the same, and
    the operands that it keeps hold all the references that it names. -/
theorem Replaces.renewed {node' : Instruction} (replaces : Replaces list node node')
    (same : node'.operation = node.operation) (resources : node'.resources = node.resources) {operation : Operation}
    {operands : List Operand} (touches : touched operation ⊆ touched node.operation)
    (named : ∀ name, Resource.memory name ∈ touched operation → name ∈ operands.flatMap Operand.addresses)
    (written : writtenNames operation ⊆ writtenNames node.operation)
    (qubits : operation.qubitAccesses = node.operation.qubitAccesses)
    (global : operation.isGlobalReset = node.operation.isGlobalReset)
    (condition : Indexed.Machine.condition? operation = Indexed.Machine.condition? node.operation) :
    Replaces list node (renewed node' operation (Folding.unnamed node operands)) where
  role := by
    have line : node'.line = node.line := congrArg Prod.fst replaces.role
    have control : node'.category.isControl = node.category.isControl :=
      congrArg (fun role : Nat × Bool × Option String => role.2.1) replaces.role
    exact role_congr line control condition
  resources := resources ▸ (resources_renewed node' operation _).subset
  covers := by
    rw [← same] at touches written qubits global
    refine replaces.covers.renewed touches (fun name member there => ?_) written qubits global
    exact not_named_of_unnamed member (named name there)
  reaches := reaches_renewed resources touches named

/-! ## Classical instructions -/

theorem memory_mem_touched_classical {opcode : String} {operands : List Operand} {name : String} :
    Resource.memory name ∈ touched (.classical opcode operands) ↔ name ∈ operands.flatMap Operand.addresses := by
  rw [memory_mem_touched]
  constructor
  · rintro ⟨access, member, rfl⟩
    rcases List.mem_append.mp member with written | read
    · obtain ⟨name, named, rfl⟩ := List.mem_map.mp written
      obtain ⟨operand, there, own⟩ := List.mem_flatMap.mp named
      exact List.mem_flatMap.mpr ⟨operand, List.mem_of_mem_take there, own⟩
    · obtain ⟨name, named, rfl⟩ := List.mem_map.mp read
      obtain ⟨operand, there, own⟩ := List.mem_flatMap.mp named
      exact List.mem_flatMap.mpr ⟨operand, List.mem_of_mem_drop there, own⟩
  · intro named
    obtain ⟨operand, there, own⟩ := List.mem_flatMap.mp named
    rw [← List.take_append_drop (Operation.writtenCount opcode) operands] at there
    rcases List.mem_append.mp there with written | read
    · refine ⟨⟨name, .assignment⟩, List.mem_append_left _ (List.mem_map_of_mem ?_), rfl⟩
      exact List.mem_flatMap.mpr ⟨operand, written, own⟩
    · refine ⟨⟨name, .usage⟩, List.mem_append_right _ (List.mem_map_of_mem ?_), rfl⟩
      exact List.mem_flatMap.mpr ⟨operand, read, own⟩

theorem touched_classical {opcode opcode' : String} {operands operands' : List Operand}
    (subset : operands'.flatMap Operand.addresses ⊆ operands.flatMap Operand.addresses) :
    touched (.classical opcode' operands') ⊆ touched (.classical opcode operands) := by
  intro resource member
  cases resource with
  | memory name =>
      exact memory_mem_touched_classical.mpr (subset (memory_mem_touched_classical.mp member))
  | qubit name =>
      obtain ⟨access, there, _⟩ := qubit_mem_touched.mp member
      cases there

theorem simplify_spec (opcode : String) (operands : List Operand) (valueOf : Operand → Option Number) :
    ∃ opcode' operands',
      Folding.simplify opcode operands (Evaluation.writes opcode operands valueOf) = .classical opcode' operands' ∧
        operands'.flatMap Operand.addresses ⊆ operands.flatMap Operand.addresses ∧
        writtenNames (.classical opcode' operands') = writtenNames (.classical opcode operands) := by
  rcases simplify_writes opcode operands valueOf with same | ⟨name, value, single, member, same⟩
  · exact ⟨opcode, operands, same, List.Subset.refl _, rfl⟩
  · have first := target_of_mem_writes single member
    refine ⟨_, _, same, ?_, ?_⟩
    · intro other named
      cases List.mem_singleton.mp (show other ∈ [name] from named)
      exact List.mem_flatMap.mpr ⟨_, List.mem_of_getElem? first, List.mem_singleton_self _⟩
    · rw [writtenNames_move, writtenNames_single single first]

/-- Folding by the classical rule leaves a list, or notes what a classical instruction writes. Then it may give the
    instruction another operation, which writes the same and names nothing new, and take it off the chains of what that
    one does not name. -/
theorem foldClassical_cases (list : InstructionList) (node : Instruction) :
    (Folding.foldClassical list node).1 = list ∨
    (∃ written, (Folding.foldClassical list node).1 = list.modify node.id (Folding.noteWritten written)) ∨
    ∃ opcode operands written opcode' operands', node.operation = .classical opcode operands ∧
      operands'.flatMap Operand.addresses ⊆ operands.flatMap Operand.addresses ∧
      writtenNames (.classical opcode' operands') = writtenNames node.operation ∧
      (Folding.foldClassical list node).1 =
        Folding.detachAll ((list.modify node.id (Folding.noteWritten written)).modify node.id
          (fun n => n.setOperation (.classical opcode' operands'))) node.id (Folding.unnamed node operands') := by
  unfold Folding.foldClassical
  split
  · next opcode operands operation =>
    obtain ⟨opcode', operands', simplified, subset, names⟩ := simplify_spec opcode
      (Folding.substituteOperands list node opcode operands) (list.operandBefore? node)
    rw [writtenNames_substituteOperands, ← operation] at names
    dsimp only
    rw [simplified]
    split
    · exact .inr (.inr ⟨opcode, operands, _, opcode', operands', operation,
        List.Subset.trans subset addresses_substituteOperands, names, rfl⟩)
    · exact .inr (.inl ⟨_, rfl⟩)
  · exact .inl rfl

theorem shape_noteWritten (written : List Written) (node : Instruction) :
    (Folding.noteWritten written node).shape = node.shape := by
  have same : ∀ o : MemoryOccurrence, (note written o).name = o.name ∧ (note written o).links = o.links :=
    fun o => ⟨(note_spec written o).1, (note_spec written o).2.2.1⟩
  rw [noteWritten_eq, Instruction.shape, Instruction.shape]
  simp [Function.comp_def, same]

theorem Covers.noteWritten (covers : Covers list node) (written : List Written) :
    Covers list (Folding.noteWritten written node) := by
  have same : ∀ o : MemoryOccurrence, (note written o).name = o.name ∧ (note written o).use = o.use :=
    fun o => ⟨(note_spec written o).1, (note_spec written o).2.1⟩
  rw [noteWritten_eq]
  refine covers.congr rfl ?_ rfl
  simp [Function.comp_def, same]

theorem HoldsAt.noteWritten {before after : State σ} (holds : HoldsAt device node before after)
    {written : List Written} (noted : ∀ w ∈ written, ∀ value, w.value = some value →
      after.memory w.name = value ∧ w.name ∈ writtenNames node.operation) :
    HoldsAt device (Folding.noteWritten written node) before after := by
  rw [noteWritten_eq]
  refine ⟨?_, ?_, holds.after, holds.before⟩
  · intro o' member value known
    obtain ⟨o, there, rfl⟩ := List.mem_map.mp member
    obtain ⟨name, _, _, values⟩ := note_spec written o
    rw [name]
    rcases values with same | ⟨w, own, named, same⟩
    · exact holds.memory o there value (same ▸ known)
    · exact named ▸ (noted w own value (same.trans known)).1
  · intro o' member value known writes
    obtain ⟨o, there, rfl⟩ := List.mem_map.mp member
    obtain ⟨name, use, _, values⟩ := note_spec written o
    rw [name]
    rcases values with same | ⟨w, own, named, same⟩
    · refine holds.named o there value (same ▸ known) ?_
      rw [← writes, MemoryOccurrence.isAssignment, MemoryOccurrence.isAssignment, use]
    · exact named ▸ (noted w own value (same.trans known)).2

theorem Known.noted (known : Known device list isEntry node state) {opcode : String} {operands : List Operand}
    (operation : node.operation = .classical opcode operands) :
    ∀ w ∈ Evaluation.writes opcode (Folding.substituteOperands list node opcode operands)
      (list.operandBefore? node), ∀ value, w.value = some value →
        (device.exec site node.operation state).memory w.name = value ∧
          w.name ∈ writtenNames node.operation := by
  intro w member value isValue
  have found := (valueIn_of_mem_writes member).trans isValue
  rw [operation, ← exec_substituteOperands known, ← writtenNames_substituteOperands]
  refine ⟨memory_exec_of_valueIn known.refines found, ?_⟩
  rw [Indexed.writtenNames_classical]
  exact Evaluation.mem_of_valueIn_writes found

theorem foldClassical_spec {id : Nat} (ordered : Ordered list) (running : id ∈ list.order)
    (found : list.nodes[id]? = some node) (isEntry : Bool) {opcode : String} {operands : List Operand}
    (operation : node.operation = .classical opcode operands) :
    ∃ node', Rewrite list (Folding.foldClassical list node).1 id node' ∧ Replaces list node node' ∧
      ActsAs list isEntry node node' := by
  have number := ordered.chained.numbered found
  have covers := ordered.covers running found
  obtain ⟨opcode', operands', simplified, subset, names⟩ := simplify_spec opcode
    (Folding.substituteOperands list node opcode operands) (list.operandBefore? node)
  generalize written : Evaluation.writes opcode (Folding.substituteOperands list node opcode operands)
    (list.operandBefore? node) = values at simplified
  have first : Rewrite list (list.modify id (Folding.noteWritten values)) id (Folding.noteWritten values node) :=
    .first ordered.chained found (shape_noteWritten values node)
  have resources : (Folding.noteWritten values node).resources = node.resources := by
    rw [← Instruction.resources_shape, shape_noteWritten, Instruction.resources_shape]
  have same : (Folding.noteWritten values node).operation = node.operation := by rw [noteWritten_eq]
  have role : (Folding.noteWritten values node).role = node.role := by
    rw [noteWritten_eq]
    rfl
  have noted : Replaces list node (Folding.noteWritten values node) :=
    ⟨role, resources ▸ List.Subset.refl _, covers.noteWritten values, .of_same same resources⟩
  have within : operands'.flatMap Operand.addresses ⊆ operands.flatMap Operand.addresses :=
    List.Subset.trans subset addresses_substituteOperands
  have writes : writtenNames (.classical opcode' operands') = writtenNames node.operation := by
    rw [names, writtenNames_substituteOperands, operation]
  simp only [Folding.foldClassical, operation, written, number]
  rw [simplified]
  split
  · refine ⟨_, rewrite_renewed first running found ordered.chained resources _ _, ?_, ?_⟩
    · refine noted.renewed same resources ?_ (fun name => memory_mem_touched_classical.mp) ?_ ?_ ?_ ?_
      · rw [operation]
        exact touched_classical within
      · rw [writes]
        exact List.Subset.refl _
      all_goals
        rw [operation]
        rfl
    · intro σ device site before known holds
      refine ⟨?_, ?_⟩
      · change device.exec site (.classical opcode' operands') before = _
        rw [← simplified, ← written, operation]
        exact (exec_simplify known.refines).trans (exec_substituteOperands known)
      · refine (holds.noteWritten (written ▸ known.noted operation)).renewed _ ?_ ?_
        · rw [same, operation]
          rfl
        · rw [writes, same]
          exact List.Subset.refl _
  · refine ⟨_, first, noted, ?_⟩
    intro σ device site before known holds
    rw [same]
    exact ⟨rfl, holds.noteWritten (written ▸ known.noted operation)⟩

end TwoLane.Execution
