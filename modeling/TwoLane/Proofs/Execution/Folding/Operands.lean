import TwoLane.Proofs.Execution.Folding
import TwoLane.Proofs.Execution.Grounded

/-! # Folded operands

What folding makes of a classical operation depends on what is known in front of it alone. It is known to write the same
as before, and a second folding in front of which the same is known leaves it.
-/

namespace TwoLane

open Indexed (writtenNames)
open Execution (Ordered)

namespace Outlook

variable (outlook : Outlook)

/-- Put a value in the place of an operand that is a reference with a known value. -/
def substitute (operand : Operand) : Operand :=
  match operand with
  | .address name =>
      match outlook.memory name with
      | some value => .literal value
      | none => operand
  | _ => operand

/-- The operands of a classical operation with known values in place of the references that it only reads. -/
def substituteOperands (opcode : String) (operands : List Operand) : List Operand :=
  operands.zipIdx.map (fun entry =>
    if entry.2 < Operation.writtenCount opcode || (Operation.classical opcode operands).fixedOperand entry.2 then entry.1
    else outlook.substitute entry.1)

def reduced (operation : Operation) : Operation :=
  match operation with
  | .classical opcode operands =>
      Folding.simplify opcode (outlook.substituteOperands opcode operands)
        (Evaluation.writes opcode (outlook.substituteOperands opcode operands) outlook.operand)
  | _ => operation

variable {outlook} {opcode : String} {operands : List Operand}

theorem operand_substitute (operand : Operand) :
    outlook.operand (outlook.substitute operand) = outlook.operand operand := by
  cases operand with
  | address name =>
      rw [substitute]
      cases known : outlook.memory name with
      | none => rfl
      | some value => exact known.symm
  | literal _ => rfl
  | expression _ _ => rfl

theorem substitute_substitute (operand : Operand) :
    outlook.substitute (outlook.substitute operand) = outlook.substitute operand := by
  cases operand with
  | address name =>
      rw [substitute]
      cases known : outlook.memory name with
      | none => rw [substitute, known]
      | some value => rfl
  | literal _ => rfl
  | expression _ _ => rfl

theorem addresses_substitute (operand : Operand) : (outlook.substitute operand).addresses ⊆ operand.addresses := by
  cases operand with
  | address name =>
      rw [substitute]
      cases outlook.memory name with
      | none => exact List.Subset.refl _
      | some _ => exact List.nil_subset _
  | literal _ => exact List.Subset.refl _
  | expression _ _ => exact List.Subset.refl _

theorem getElem?_substituteOperands (i : Nat) :
    (outlook.substituteOperands opcode operands)[i]? = (operands[i]?).map (fun operand =>
      if i < Operation.writtenCount opcode || (Operation.classical opcode operands).fixedOperand i then operand
      else outlook.substitute operand) := by
  rw [substituteOperands, List.getElem?_map, List.getElem?_zipIdx, Nat.zero_add, Option.map_map]
  rfl

theorem getElem?_written {i : Nat} (written : i < Operation.writtenCount opcode) :
    (outlook.substituteOperands opcode operands)[i]? = operands[i]? := by
  rw [getElem?_substituteOperands]
  cases operands[i]? with
  | none => rfl
  | some operand => simp [written]

theorem fixedOperand_congr (opcode : String) (operands operands' : List Operand) (i : Nat) :
    (Operation.classical opcode operands').fixedOperand i = (Operation.classical opcode operands).fixedOperand i := by
  unfold Operation.fixedOperand
  split <;> simp_all

theorem substituteOperands_idem :
    outlook.substituteOperands opcode (outlook.substituteOperands opcode operands) =
      outlook.substituteOperands opcode operands := by
  apply List.ext_getElem?
  intro i
  rw [getElem?_substituteOperands, getElem?_substituteOperands, fixedOperand_congr opcode operands]
  cases operands[i]? with
  | none => rfl
  | some operand =>
      simp only [Option.map_some]
      split
      · rfl
      · rw [substitute_substitute]

theorem writes_substituteOperands :
    Evaluation.writes opcode (outlook.substituteOperands opcode operands) outlook.operand =
      Evaluation.writes opcode operands outlook.operand := by
  have reads : ∀ i : Nat, ((outlook.substituteOperands opcode operands)[i]?).bind outlook.operand =
      (operands[i]?).bind outlook.operand := by
    intro i
    rw [getElem?_substituteOperands]
    cases operands[i]? with
    | none => rfl
    | some operand =>
        rw [Option.map_some, Option.bind_some, Option.bind_some]
        split
        · rfl
        · exact operand_substitute operand
  have first : (outlook.substituteOperands opcode operands)[0]? = operands[0]? := by
    refine getElem?_written ?_
    unfold Operation.writtenCount
    split
    · decide
    · decide
  unfold Evaluation.writes
  by_cases exchange : opcode = "EXCHANGE"
  · have second : (outlook.substituteOperands opcode operands)[1]? = operands[1]? := by
      refine getElem?_written ?_
      rw [exchange]
      decide
    simp only [reads, first, second]
  · simp only [reads, first, if_neg exchange]

theorem reduced_move (name : String) (value : Number) :
    outlook.reduced (.classical "MOVE" [.address name, .literal value]) =
      .classical "MOVE" [.address name, .literal value] := rfl

theorem written_move (name : String) (value : Number) :
    outlook.written (.classical "MOVE" [.address name, .literal value]) = [⟨name, some value⟩] := rfl

/-- A folded operation is known to write the same. -/
theorem written_reduced (operation : Operation) :
    outlook.written (outlook.reduced operation) = outlook.written operation := by
  cases operation with
  | classical opcode operands =>
      rw [reduced]
      unfold Folding.simplify
      split
      · exact writes_substituteOperands
      · next other =>
        obtain ⟨_, single⟩ := not_or.mp other
        split
        · next target name value first known =>
          have member : (⟨name, some value⟩ : Written) ∈
              Evaluation.writes opcode (outlook.substituteOperands opcode operands) outlook.operand := by
            rw [known]
            exact List.mem_singleton_self _
          cases first.symm.trans (Execution.target_of_mem_writes single member)
          rw [written_move, ← known]
          exact writes_substituteOperands
        · exact writes_substituteOperands
  | _ => rfl

/-- A folded operation stays under a second folding. -/
theorem reduced_idem (operation : Operation) :
    outlook.reduced (outlook.reduced operation) = outlook.reduced operation := by
  cases operation with
  | classical opcode operands =>
      have again : outlook.reduced (.classical opcode (outlook.substituteOperands opcode operands)) =
          Folding.simplify opcode (outlook.substituteOperands opcode operands)
            (Evaluation.writes opcode (outlook.substituteOperands opcode operands) outlook.operand) := by
        rw [reduced, substituteOperands_idem]
      rcases Execution.simplify_writes opcode (outlook.substituteOperands opcode operands) outlook.operand with
        same | ⟨name, value, _, _, same⟩
      · rw [reduced, same, again, same]
      · rw [reduced, same, reduced_move]
  | _ => rfl

/-- A folded classical operation is a classical one that names no new references and writes the same ones. -/
theorem reduced_spec (outlook : Outlook) (opcode : String) (operands : List Operand) : ∃ opcode' operands',
    outlook.reduced (.classical opcode operands) = .classical opcode' operands' ∧
      writtenNames (.classical opcode' operands') = writtenNames (.classical opcode operands) := by
  obtain ⟨opcode', operands', same, _, names⟩ :=
    Execution.simplify_spec opcode (outlook.substituteOperands opcode operands) outlook.operand
  refine ⟨opcode', operands', same, names.trans ?_⟩
  rw [Indexed.writtenNames_classical, Indexed.writtenNames_classical]
  congr 1
  apply List.ext_getElem?
  intro i
  rw [List.getElem?_take, List.getElem?_take]
  split
  · next written => exact getElem?_written written
  · rfl

end Outlook

/-! ## What folding looks up -/

namespace InstructionList

variable {list : InstructionList} {id : Nat} {node : Instruction} {isEntry : Bool}

variable (ordered : Ordered list) (running : id ∈ list.order) (found : list.nodes[id]? = some node)

include ordered running found

theorem substitute_eq (isEntry : Bool) {operand : Operand}
    (held : ∀ name ∈ operand.addresses, Resource.memory name ∈ node.resources) :
    Folding.substitute list node operand = (list.outlook isEntry id).substitute operand := by
  cases operand with
  | address name =>
      have looked := memoryBefore?_eq ordered.chained running found (held name (List.mem_singleton_self name)) isEntry
      cases known : (list.outlook isEntry id).memory name <;>
        simp [Folding.substitute, Outlook.substitute, looked, known]
  | literal _ => rfl
  | expression _ _ => rfl

theorem substituteOperands_eq (isEntry : Bool) {opcode : String} {operands : List Operand}
    (operation : node.operation = .classical opcode operands) :
    Folding.substituteOperands list node opcode operands =
      (list.outlook isEntry id).substituteOperands opcode operands := by
  apply List.ext_getElem?
  intro i
  rw [Execution.getElem?_substituteOperands, Outlook.getElem?_substituteOperands, operation]
  cases there : operands[i]? with
  | none => rfl
  | some operand =>
      have held := held_of_classical ordered running found operation (List.mem_of_getElem? there)
      rw [Option.map_some, Option.map_some, substitute_eq ordered running found isEntry held]

theorem writes_eq (isEntry : Bool) {opcode : String} {operands : List Operand}
    (operation : node.operation = .classical opcode operands) :
    Evaluation.writes opcode (Folding.substituteOperands list node opcode operands) (list.operandBefore? node) =
      (list.outlook isEntry id).written node.operation := by
  have same : ∀ operand ∈ (list.outlook isEntry id).substituteOperands opcode operands,
      list.operandBefore? node operand = (list.outlook isEntry id).operand operand := by
    intro operand member
    refine operandBefore?_eq ordered running found isEntry (fun name named => ?_)
    obtain ⟨i, there⟩ := List.mem_iff_getElem?.mp member
    rw [Outlook.getElem?_substituteOperands] at there
    obtain ⟨original, own, rfl⟩ := Option.map_eq_some_iff.mp there
    refine held_of_classical ordered running found operation (List.mem_of_getElem? own) name ?_
    split at named
    · exact named
    · exact Outlook.addresses_substitute original named
  rw [substituteOperands_eq ordered running found isEntry operation, operation, Outlook.written]
  rw [← Outlook.writes_substituteOperands]
  exact Evaluation.writes_congr (fun operand member => same operand (List.mem_of_mem_drop member))
    (fun _ operand member => same operand member)

theorem simplify_eq (isEntry : Bool) {opcode : String} {operands : List Operand}
    (operation : node.operation = .classical opcode operands) :
    Folding.simplify opcode (Folding.substituteOperands list node opcode operands)
        (Evaluation.writes opcode (Folding.substituteOperands list node opcode operands) (list.operandBefore? node)) =
      (list.outlook isEntry id).reduced node.operation := by
  rw [writes_eq ordered running found isEntry operation, substituteOperands_eq ordered running found isEntry operation,
    operation, Outlook.reduced, Outlook.writes_substituteOperands]
  rfl

end InstructionList

end TwoLane
