import TwoLane.Optimize.Folding
import TwoLane.Proofs.Chain.Shape
import TwoLane.Proofs.Chain.Surgery
import TwoLane.Proofs.Execution.Facts

/-! # Rewriting an instruction

Folding replaces one instruction at a time by one that does the same in the states in which it runs, and takes it
off the chains of what it does not name any more. The rest of the list stays, and so do its effects and all that is
known in it.
-/

namespace TwoLane

/-- Drop the occurrences of several references from an instruction. -/
def Instruction.dropMemory (node : Instruction) (names : List String) : Instruction :=
  { node with memory := node.memory.filter (fun o => !names.contains o.name) }

@[simp] theorem Instruction.dropMemory_nil (node : Instruction) : node.dropMemory [] = node := by
  simp [Instruction.dropMemory]

theorem Instruction.dropMemory_cons (node : Instruction) (name : String) (rest : List String) :
    node.dropMemory (name :: rest) = (node.dropOccurrence (.memory name)).dropMemory rest := by
  simp only [Instruction.dropMemory, Instruction.dropOccurrence, List.filter_filter]
  congr 1
  refine List.filter_congr (fun o _ => ?_)
  rw [List.contains_cons, Bool.not_or, Bool.and_comm]
  rfl

namespace InstructionList

open Instruction (withoutLinks)

/-- Whether a list differs from another one by the instruction of a number, apart from links. -/
structure Rewrite (list after : InstructionList) (id : Nat) (node : Instruction) : Prop where
  order : after.order = list.order
  successors : after.successors = list.successors
  here : (after.nodes[id]?).map withoutLinks = some node.withoutLinks
  others : ∀ j, j ≠ id → (after.nodes[j]?).map withoutLinks = (list.nodes[j]?).map withoutLinks
  chained : after.Chained

variable {list after : InstructionList} {id : Nat} {node : Instruction}

theorem Rewrite.refl (chained : list.Chained) (found : list.nodes[id]? = some node) :
    Rewrite list list id node :=
  ⟨rfl, rfl, congrArg (Option.map withoutLinks) found, fun _ _ => rfl, chained⟩

theorem Rewrite.first {change : Instruction → Instruction} (chained : list.Chained)
    (found : list.nodes[id]? = some node) (kept : (change node).shape = node.shape) :
    Rewrite list (list.modify id change) id (change node) where
  order := rfl
  successors := rfl
  here := by simp [modify, found]
  others := by
    intro j differ
    simp [modify, Ne.symm differ]
  chained := by
    refine (sameShape_modify list id ?_).chained chained
    intro other there
    cases found.symm.trans there
    exact kept

theorem Rewrite.modify {change : Instruction → Instruction} (rewrite : Rewrite list after id node)
    (links : ∀ n, (change n).withoutLinks = change n.withoutLinks)
    (kept : ∀ n : Instruction, (change n).shape = n.shape) :
    Rewrite list (after.modify id change) id (change node) where
  order := rewrite.order
  successors := rewrite.successors
  here := by
    obtain ⟨there, found, equal⟩ := Option.map_eq_some_iff.mp rewrite.here
    simp [InstructionList.modify, found, links, equal]
  others := by
    intro j differ
    rw [← rewrite.others j differ]
    simp [InstructionList.modify, Ne.symm differ]
  chained := (sameShape_modify after id (fun n _ => kept n)).chained rewrite.chained

theorem Rewrite.dropped {resource : Resource} (rewrite : Rewrite list after id node)
    (running : id ∈ list.order) (member : resource ∈ node.resources) :
    Rewrite list (after.dropped id resource) id (node.dropOccurrence resource) where
  order := (sameButLinks_unlink after id resource).order.symm.trans rewrite.order
  successors := (sameButLinks_unlink after id resource).successors.symm.trans rewrite.successors
  here := by
    obtain ⟨there, found, equal⟩ := Option.map_eq_some_iff.mp rewrite.here
    rw [withoutLinks_dropped, found]
    simp [Instruction.withoutLinks_dropOccurrence, equal]
  others := by
    intro j differ
    rw [withoutLinks_dropped, ← rewrite.others j differ]
    simp only [if_neg (Ne.symm differ)]
  chained := by
    obtain ⟨there, found, equal⟩ := Option.map_eq_some_iff.mp rewrite.here
    refine rewrite.chained.dropped (rewrite.order ▸ running) found ?_
    rw [Instruction.resources_congr equal]
    exact member

theorem Rewrite.detachAll {names : List String} (rewrite : Rewrite list after id node)
    (running : id ∈ list.order) (distinct : names.Nodup)
    (members : ∀ name ∈ names, Resource.memory name ∈ node.resources) :
    Rewrite list (Folding.detachAll after id names) id (node.dropMemory names) := by
  induction names generalizing after node with
  | nil =>
      rw [Instruction.dropMemory_nil]
      exact rewrite
  | cons name rest ih =>
      obtain ⟨absent, further⟩ := List.nodup_cons.mp distinct
      have first := rewrite.dropped running (members name List.mem_cons_self)
      rw [Instruction.dropMemory_cons]
      refine ih first further ?_
      intro other member
      rw [Instruction.resources_dropOccurrence]
      have differ : other ≠ name := fun equal => absent (equal ▸ member)
      exact List.mem_filter.mpr ⟨members other (List.mem_cons_of_mem _ member), by simpa using differ⟩

theorem Rewrite.getElem? (rewrite : Rewrite list after id node) {j : Nat} {there : Instruction}
    (found : after.nodes[j]? = some there) : (j = id ∧ there.withoutLinks = node.withoutLinks) ∨
      (j ≠ id ∧ ∃ before, list.nodes[j]? = some before ∧ there.withoutLinks = before.withoutLinks) := by
  by_cases here : j = id
  · subst here
    have same := rewrite.here
    rw [found] at same
    exact .inl ⟨rfl, Option.some.inj same⟩
  · have same := rewrite.others j here
    rw [found] at same
    obtain ⟨before, beforeFound, equal⟩ := Option.map_eq_some_iff.mp same.symm
    exact .inr ⟨here, before, beforeFound, equal.symm⟩

end InstructionList

namespace Execution

open InstructionList (Rewrite)

variable {σ : Type} {device : Device σ} {visit id : Nat} {list after : InstructionList} {state : State σ}
  {node node' : Instruction}

theorem Covers.of_links (covers : Covers list node) (same : node'.withoutLinks = node.withoutLinks) :
    Covers list node' := by
  have memory := congrArg (fun n : Instruction => n.memory.map (fun o => (o.name, o.use))) same
  have qubits := congrArg (fun n : Instruction => n.qubits.map (fun o => (o.name, o.use))) same
  simp only [Instruction.withoutLinks, List.map_map, Function.comp_def] at memory qubits
  exact covers.congr (Instruction.operation_congr same) memory qubits

theorem HoldsAt.of_links {before after : State σ} (holds : HoldsAt device node before after)
    (same : node'.withoutLinks = node.withoutLinks) : HoldsAt device node' before after := by
  have operation := Instruction.operation_congr same
  refine holds.fewer (by rw [operation]; exact fun plain => plain) (by rw [operation]; exact List.Subset.refl _)
    ?_ ?_
  · intro o' member
    have view : ({ o' with links := .none } : MemoryOccurrence) ∈ node'.withoutLinks.memory :=
      List.mem_map_of_mem member
    rw [same] at view
    obtain ⟨o, there, equal⟩ := List.mem_map.mp view
    exact ⟨o, there, equal⟩
  · intro o' member
    have view : ({ o' with links := .none } : QubitOccurrence) ∈ node'.withoutLinks.qubits :=
      List.mem_map_of_mem member
    rw [same] at view
    obtain ⟨o, there, equal⟩ := List.mem_map.mp view
    exact ⟨o, there, equal⟩

theorem Ordered.rewrite (ordered : Ordered list) (rewrite : Rewrite list after id node')
    (running : id ∈ list.order) (found : list.nodes[id]? = some node)
    (resources : node'.resources ⊆ node.resources) (covers : Covers list node') : Ordered after := by
  refine ordered.restrict rewrite.chained (rewrite.order ▸ List.Sublist.refl _) ?_ ?_
  · intro resource j holds
    obtain ⟨runs, there, thereFound, member⟩ := InstructionList.isHolder_iff.mp holds
    rw [rewrite.order] at runs
    rcases rewrite.getElem? thereFound with ⟨rfl, same⟩ | ⟨_, before, beforeFound, same⟩
    · rw [Instruction.resources_congr same] at member
      exact InstructionList.isHolder_iff.mpr ⟨running, node, found, resources member⟩
    · rw [Instruction.resources_congr same] at member
      exact InstructionList.isHolder_iff.mpr ⟨runs, before, beforeFound, member⟩
  · intro j there runs thereFound
    rw [rewrite.order] at runs
    rcases rewrite.getElem? thereFound with ⟨rfl, same⟩ | ⟨_, before, beforeFound, same⟩
    · exact covers.of_links same
    · exact (ordered.covers runs beforeFound).of_links same

theorem sameEffects_of_rewrite (rewrite : Rewrite list after id node') (distinct : list.order.Nodup)
    (found : list.nodes[id]? = some node)
    (effect : device.exec ⟨visit, id⟩ node'.operation (stateBefore device visit list state id) =
      device.exec ⟨visit, id⟩ node.operation (stateBefore device visit list state id)) :
    SameEffects device visit list after state where
  order := rewrite.order
  distinct := distinct
  step := by
    intro j runs
    by_cases here : j = id
    · subst here
      obtain ⟨there, thereFound, same⟩ := Option.map_eq_some_iff.mp rewrite.here
      rw [stateAfter_eq found, stepAt, thereFound, ← effect, ← Instruction.operation_congr same]
    · refine stepAt_congr ?_
      have same := congrArg (Option.map Instruction.operation) (rewrite.others j here)
      rw [Option.map_map, Option.map_map] at same
      exact same

theorem Told.rewrite (told : Told device visit list state) (rewrite : Rewrite list after id node')
    (effects : SameEffects device visit list after state)
    (holds : HoldsAt device node' (stateBefore device visit list state id)
      (stateAfter device visit list state id)) : Told device visit after state := by
  refine Told.of_effects effects ?_
  intro j runs there thereFound
  rcases rewrite.getElem? thereFound with ⟨rfl, same⟩ | ⟨_, before, beforeFound, same⟩
  · exact holds.of_links same
  · exact (told j runs before beforeFound).of_links same

end Execution

end TwoLane
