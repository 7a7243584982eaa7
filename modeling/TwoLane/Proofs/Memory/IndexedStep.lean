import TwoLane.Optimize.Liveness
import TwoLane.Proofs.Memory.Indexed

/-! # Steps on indexed memory

What one classical instruction may do to the cells. Only the cells of written names change; a store changes the
one cell that it picks.
-/

namespace TwoLane.Indexed

/-- An operation that touches no qubit: a classical one, one of control, or one that does nothing. -/
inductive IsStep : Operation → Prop where
  | classical (opcode : String) (operands : List Operand) : IsStep (.classical opcode operands)
  | label (name : String) : IsStep (.label name)
  | jump (target : String) : IsStep (.jump target)
  | jumpWhen (target name : String) : IsStep (.jumpWhen target name)
  | jumpUnless (target name : String) : IsStep (.jumpUnless target name)
  | halt : IsStep .halt
  | declare (text : String) : IsStep (.declare text)
  | circuit (name : String) (formals : List String) : IsStep (.circuit name formals)
  | other (text : String) : IsStep (.other text)

/-- The references that an operation writes. -/
def writtenNames (operation : Operation) : List String :=
  Liveness.namesOf .assignment operation

/-- The references that an operation reads and does not write. -/
def onlyRead (operation : Operation) (name : String) : Prop :=
  name ∈ Liveness.namesOf .usage operation ∧ name ∉ writtenNames operation

def isStore : Operation → Bool
  | .classical opcode _ => opcode == "STORE"
  | _ => false

def indexOf? (cells : Cells) : Operation → Option Number
  | .classical _ (.address _ :: picked :: _) => read cells picked
  | _ => none

/-- The cells that an operation can change, given what the cells hold before it. A store picks one cell by its
    index. -/
def MayWrite (index : Number → String) (before : Cells) (operation : Operation) (changed : String) :
    Prop :=
  ∃ name ∈ writtenNames operation,
    if isStore operation then
      match indexOf? before operation with
      | some i => changed = slot name (index i)
      | none => InRow name changed
    else changed = cell name

/-- An execution of a classical instruction. Where evaluation gives no value any value may be written, but a
    load writes the cell it picks, and a store writes its last operand. -/
structure Step (index : Number → String) (operation : Operation) (before after : Cells) : Prop where
  frame : ∀ {other}, ¬ MayWrite index before operation other → after other = before other
  value : ∀ {opcode operands name value}, operation = .classical opcode operands →
    opcode ≠ "STORE" →
      Evaluation.valueIn (Evaluation.writes opcode operands (read before)) name = some value →
        after (cell name) = value
  load : ∀ {target region picked rest i},
    operation = .classical "LOAD" (.address target :: .address region :: picked :: rest) →
      read before picked = some i → after (cell target) = before (slot region (index i))
  store : ∀ {region picked stored rest i value},
    operation = .classical "STORE" (.address region :: picked :: stored :: rest) →
      read before picked = some i → read before stored = some value →
        after (slot region (index i)) = value

/-- Whether no reference is only read whose cell may be written under another name. -/
def SeparateReads (operation : Operation) : Prop :=
  ∀ name, onlyRead operation name → ∀ written ∈ writtenNames operation,
    if isStore operation then ¬ InRow written (cell name) else cell name ≠ cell written

/-- Only classical operations write memory, apart from those that touch qubits. -/
theorem IsStep.writes {operation : Operation} (step : IsStep operation) :
    (∃ opcode operands, operation = .classical opcode operands) ∨ writtenNames operation = [] := by
  cases step with
  | classical opcode operands => exact .inl ⟨opcode, operands, rfl⟩
  | _ => exact .inr rfl

theorem mem_writtenNames {operation : Operation} {name : String} :
    name ∈ writtenNames operation ↔
      ∃ a ∈ operation.memoryAccesses, a.name = name ∧ a.use = .assignment := by
  simp only [writtenNames, Liveness.namesOf, List.mem_map, List.mem_filter, beq_iff_eq]
  grind

theorem namesOf_accessesOf (use other : MemoryUse) (operands : List Operand) :
    ((Operation.accessesOf other operands).filter (fun a => a.use == use)).map MemoryAccess.name =
      if other = use then operands.flatMap Operand.addresses else [] := by
  rw [Operation.accessesOf, List.filter_map, List.map_map]
  by_cases same : other = use <;> simp [Function.comp_def, same]

theorem writtenNames_classical (opcode : String) (operands : List Operand) :
    writtenNames (.classical opcode operands) =
      (operands.take (Operation.writtenCount opcode)).flatMap Operand.addresses := by
  rw [writtenNames, Liveness.namesOf, Operation.memoryAccesses, List.filter_append, List.map_append,
    namesOf_accessesOf, namesOf_accessesOf]
  simp

theorem usage_classical (opcode : String) (operands : List Operand) :
    Liveness.namesOf .usage (.classical opcode operands) =
      (operands.drop (Operation.writtenCount opcode)).flatMap Operand.addresses := by
  rw [Liveness.namesOf, Operation.memoryAccesses, List.filter_append, List.map_append,
    namesOf_accessesOf, namesOf_accessesOf]
  simp

variable {index : Number → String} {before after : Cells} {operation : Operation} {name : String}

theorem not_mayWrite (apart : ∀ written ∈ writtenNames operation,
      if isStore operation then ¬ InRow written (cell name) else cell name ≠ cell written) :
    ¬ MayWrite index before operation (cell name) := by
  rintro ⟨written, member, changed⟩
  have differ := apart written member
  split at changed
  · next store =>
      rw [if_pos store] at differ
      split at changed
      · exact differ (changed ▸ inRow_slot written _)
      · exact differ changed
  · next other =>
      rw [if_neg other] at differ
      exact differ changed

theorem not_mayWrite_of_apart
    (apart : ∀ written ∈ writtenNames operation, Memory.mayOverlap name written = false) :
    ¬ MayWrite index before operation (cell name) := by
  refine not_mayWrite ?_
  intro written member
  split
  · exact not_inRow_of_apart (apart written member)
  · exact cell_ne_of_apart (apart written member)

end TwoLane.Indexed
