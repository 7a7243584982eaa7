import Mathlib.Data.List.Nodup
import TwoLane.InstructionList.Change

/-! # Links of an instruction

Changing links changes nothing else: an instruction without its links stays the same, and so do the
resources it touches.
-/

namespace TwoLane

namespace Instruction

/-- What an instruction is apart from its neighbours. -/
def withoutLinks (instruction : Instruction) : Instruction :=
  { instruction with
    memory := instruction.memory.map (fun o => { o with links := .none })
    qubits := instruction.qubits.map (fun o => { o with links := .none }) }

def holds (instruction : Instruction) (resource : Resource) : Bool :=
  instruction.resources.contains resource

@[simp] theorem id_withoutLinks (node : Instruction) : node.withoutLinks.id = node.id := rfl

@[simp] theorem operation_withoutLinks (node : Instruction) :
    node.withoutLinks.operation = node.operation := rfl

@[simp] theorem resources_withoutLinks (node : Instruction) :
    node.withoutLinks.resources = node.resources := by
  simp [withoutLinks, resources, Function.comp_def]

@[simp] theorem holds_withoutLinks (node : Instruction) (resource : Resource) :
    node.withoutLinks.holds resource = node.holds resource := by
  simp [holds]

theorem resources_congr {a b : Instruction} (h : a.withoutLinks = b.withoutLinks) :
    a.resources = b.resources := by
  rw [← resources_withoutLinks, h, resources_withoutLinks]

theorem operation_congr {a b : Instruction} (h : a.withoutLinks = b.withoutLinks) :
    a.operation = b.operation := by
  rw [← operation_withoutLinks, h, operation_withoutLinks]

theorem id_congr {a b : Instruction} (h : a.withoutLinks = b.withoutLinks) : a.id = b.id := by
  have same : a.withoutLinks.id = b.withoutLinks.id := by rw [h]
  exact same

theorem category_congr {a b : Instruction} (h : a.withoutLinks = b.withoutLinks) : a.category = b.category := by
  have same : a.withoutLinks.category = b.withoutLinks.category := by rw [h]
  exact same

@[simp] theorem withoutLinks_modifyLinks (node : Instruction) (resource : Resource)
    (change : Links → Links) : (node.modifyLinks resource change).withoutLinks = node.withoutLinks := by
  cases resource with
  | memory name =>
      simp only [modifyLinks, modifyMemory, withoutLinks, List.map_map, Instruction.mk.injEq,
        true_and, and_true]
      apply List.map_congr_left
      intro o _
      simp only [Function.comp_apply]
      split <;> rfl
  | qubit name =>
      simp only [modifyLinks, modifyQubit, withoutLinks, List.map_map, Instruction.mk.injEq,
        true_and]
      apply List.map_congr_left
      intro o _
      simp only [Function.comp_apply]
      split <;> rfl

theorem memory?_name {node : Instruction} {name : String} {o : MemoryOccurrence}
    (found : node.memory? name = some o) : o.name = name := by
  simpa using List.find?_some found

theorem qubit?_name {node : Instruction} {name : String} {o : QubitOccurrence}
    (found : node.qubit? name = some o) : o.name = name := by
  simpa using List.find?_some found

theorem find?_map_named {α : Type} {key : α → String} {change : α → α} (same : ∀ o, key (change o) = key o)
    (entries : List α) (name other : String) :
    (entries.map (fun o => if key o == name then change o else o)).find? (fun o => key o == other) =
      if name = other then (entries.find? (fun o => key o == other)).map change
      else entries.find? (fun o => key o == other) := by
  have names : ∀ o, key (if key o == name then change o else o) = key o := by
    intro o
    split
    · exact same o
    · rfl
  simp only [List.find?_map, Function.comp_def, names]
  cases found : entries.find? (fun o => key o == other) with
  | none => simp
  | some o =>
      have named : key o = other := by simpa using List.find?_some found
      by_cases here : name = other
      · simp [named, here]
      · simp [named, here, Ne.symm here]

theorem memory?_modifyMemory (node : Instruction) (name other : String)
    {change : MemoryOccurrence → MemoryOccurrence} (same : ∀ o, (change o).name = o.name) :
    (node.modifyMemory name change).memory? other =
      if name = other then (node.memory? other).map change else node.memory? other :=
  find?_map_named same node.memory name other

theorem qubit?_modifyQubit (node : Instruction) (name other : String)
    {change : QubitOccurrence → QubitOccurrence} (same : ∀ o, (change o).name = o.name) :
    (node.modifyQubit name change).qubit? other =
      if name = other then (node.qubit? other).map change else node.qubit? other :=
  find?_map_named same node.qubits name other

theorem links?_modifyLinks (node : Instruction) (resource other : Resource)
    (change : Links → Links) :
    (node.modifyLinks resource change).links? other =
      if resource = other then (node.links? other).map change else node.links? other := by
  cases resource with
  | memory name =>
      cases other with
      | memory name' =>
          simp only [links?, modifyLinks, Resource.memory.injEq]
          rw [memory?_modifyMemory]
          · split <;> simp [Function.comp_def]
          · intro _
            rfl
      | qubit _ => simp [links?, modifyLinks, modifyMemory, qubit?]
  | qubit name =>
      cases other with
      | memory _ => simp [links?, modifyLinks, modifyQubit, memory?]
      | qubit name' =>
          simp only [links?, modifyLinks, Resource.qubit.injEq]
          rw [qubit?_modifyQubit]
          · split <;> simp [Function.comp_def]
          · intro _
            rfl

theorem isSome_links? (node : Instruction) (resource : Resource) :
    (node.links? resource).isSome = node.holds resource := by
  rw [Bool.eq_iff_iff]
  cases resource <;> simp [links?, memory?, qubit?, holds, resources]

/-! ## Dropping occurrences -/

theorem withoutLinks_dropOccurrence (node : Instruction) (resource : Resource) :
    (node.dropOccurrence resource).withoutLinks = node.withoutLinks.dropOccurrence resource := by
  cases resource with
  | memory name => simp [dropOccurrence, withoutLinks, List.filter_map, Function.comp_def]
  | qubit name => simp [dropOccurrence, withoutLinks, List.filter_map, Function.comp_def]

theorem resources_dropOccurrence (node : Instruction) (resource : Resource) :
    (node.dropOccurrence resource).resources = node.resources.filter (fun r => r != resource) := by
  cases resource with
  | memory name =>
      simp only [dropOccurrence, resources, List.filter_append, List.filter_map, Function.comp_def]
      congr 1
      · congr 1
        exact List.filter_congr (fun o _ => by simp [bne])
      · exact congrArg _ (List.filter_eq_self.mpr (fun o _ => rfl)).symm
  | qubit name =>
      simp only [dropOccurrence, resources, List.filter_append, List.filter_map, Function.comp_def]
      congr 1
      · exact congrArg _ (List.filter_eq_self.mpr (fun o _ => rfl)).symm
      · congr 1
        exact List.filter_congr (fun o _ => by simp [bne])

theorem links?_dropOccurrence (node : Instruction) (resource other : Resource) :
    (node.dropOccurrence resource).links? other =
      if resource = other then none else node.links? other := by
  cases resource with
  | memory name =>
      cases other with
      | memory name' =>
          by_cases here : name = name'
          · simp [here, links?, memory?, dropOccurrence]
          · rw [if_neg (by simpa using here), links?, links?, memory?, memory?, dropOccurrence, List.find?_filter]
            congr 2
            funext o
            by_cases named : o.name = name'
            · simp [named, Ne.symm here]
            · simp [named]
      | qubit _ => rfl
  | qubit name =>
      cases other with
      | memory _ => rfl
      | qubit name' =>
          by_cases here : name = name'
          · simp [here, links?, qubit?, dropOccurrence]
          · rw [if_neg (by simpa using here), links?, links?, qubit?, qubit?, dropOccurrence, List.find?_filter]
            congr 2
            funext o
            by_cases named : o.name = name'
            · simp [named, Ne.symm here]
            · simp [named]

end Instruction

end TwoLane
