import TwoLane.Proofs.Chain.Exact

/-! # Lists of one shape

The chains of a list depend on its order and on the names and links of occurrences alone. Whatever else changes, the
chains stay exact.
-/

namespace TwoLane

namespace Instruction

/-- The number of an instruction with the names and links of its occurrences. -/
def shape (instruction : Instruction) : Instruction where
  id := instruction.id
  line := 0
  category := .control
  text := ""
  operation := .halt
  dead := false
  memory := instruction.memory.map (fun o => ⟨o.name, .usage, none, o.links⟩)
  qubits := instruction.qubits.map (fun o => ⟨o.name, .measure, none, none, o.links⟩)

@[simp] theorem id_shape (node : Instruction) : node.shape.id = node.id := rfl

@[simp] theorem resources_shape (node : Instruction) : node.shape.resources = node.resources := by
  simp [shape, resources, Function.comp_def]

@[simp] theorem links?_shape (node : Instruction) (resource : Resource) :
    node.shape.links? resource = node.links? resource := by
  cases resource with
  | memory name =>
      rw [links?, links?, memory?, shape, List.find?_map, Option.map_map]
      rfl
  | qubit name =>
      rw [links?, links?, qubit?, shape, List.find?_map, Option.map_map]
      rfl

end Instruction

namespace InstructionList

/-- Whether two lists have the same order, and their instructions the same numbers, names and links. -/
structure SameShape (a b : InstructionList) : Prop where
  order : a.order = b.order
  nodes : a.nodes.map Instruction.shape = b.nodes.map Instruction.shape

variable {a b c : InstructionList}

theorem SameShape.symm (same : SameShape a b) : SameShape b a :=
  ⟨same.order.symm, same.nodes.symm⟩

theorem SameShape.length (same : SameShape a b) : a.nodes.length = b.nodes.length := by
  simpa using congrArg List.length same.nodes

theorem SameShape.getElem? (same : SameShape a b) {id : Nat} {node : Instruction}
    (found : a.nodes[id]? = some node) :
    ∃ other, b.nodes[id]? = some other ∧ node.shape = other.shape := by
  have views := congrArg (fun nodes : List Instruction => nodes[id]?) same.nodes
  simp only [List.getElem?_map, found, Option.map_some] at views
  obtain ⟨other, there, equal⟩ := Option.map_eq_some_iff.mp views.symm
  exact ⟨other, there, equal.symm⟩

theorem sameShape_modify (list : InstructionList) (id : Nat) {change : Instruction → Instruction}
    (kept : ∀ node, list.nodes[id]? = some node → (change node).shape = node.shape) :
    SameShape list (list.modify id change) where
  order := rfl
  nodes := by
    apply List.ext_getElem?
    intro other
    rw [modify, List.getElem?_map, List.getElem?_map, List.getElem?_modify]
    cases found : list.nodes[other]? with
    | none => rfl
    | some node =>
        by_cases here : id = other
        · subst here
          simp [kept node found]
        · simp [here]

theorem SameShape.isHolder_imp (same : SameShape a b) {resource : Resource} {id : Nat}
    (holds : a.isHolder resource id = true) : b.isHolder resource id = true := by
  obtain ⟨running, node, found, member⟩ := isHolder_iff.mp holds
  obtain ⟨other, there, equal⟩ := same.getElem? found
  refine isHolder_iff.mpr ⟨same.order ▸ running, other, there, ?_⟩
  rwa [← Instruction.resources_shape, ← equal, Instruction.resources_shape]

theorem SameShape.isHolder (same : SameShape a b) (resource : Resource) :
    a.isHolder resource = b.isHolder resource := by
  funext id
  rw [Bool.eq_iff_iff]
  exact ⟨same.isHolder_imp, same.symm.isHolder_imp⟩

theorem SameShape.chained (same : SameShape a b) (chained : a.Chained) : b.Chained where
  numbered := by
    intro id node found
    obtain ⟨other, there, equal⟩ := same.symm.getElem? found
    rw [← Instruction.id_shape, equal, Instruction.id_shape, chained.numbered there]
  order := same.order ▸ chained.order
  inside := by
    rw [← same.order, ← same.length]
    exact chained.inside
  distinct := by
    intro id node found
    obtain ⟨other, there, equal⟩ := same.symm.getElem? found
    rw [← Instruction.resources_shape, equal, Instruction.resources_shape]
    exact chained.distinct there
  exact := by
    intro id node resource links running found linked
    obtain ⟨other, there, equal⟩ := same.symm.getElem? found
    rw [← Instruction.links?_shape, equal, Instruction.links?_shape] at linked
    have exact := chained.exact (same.order ▸ running) there linked
    rw [exact, nearest, nearest, same.isHolder, same.length]

end InstructionList

end TwoLane
