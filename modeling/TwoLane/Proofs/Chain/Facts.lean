import TwoLane.Proofs.Chain.Shape
import TwoLane.Optimize.Constants

/-! # Facts along chains

Propagation changes only what is known about occurrences. What it looks up in front of an instruction is
what is known behind the nearest instruction before it on the chain.
-/

namespace TwoLane

namespace Instruction

/-- What an instruction is apart from what is known about its occurrences. -/
def withoutFacts (instruction : Instruction) : Instruction :=
  { instruction with
    memory := instruction.memory.map (fun o => { o with value := none })
    qubits := instruction.qubits.map (fun o => { o with before := none, after := none }) }

@[simp] theorem shape_withoutFacts (node : Instruction) : node.withoutFacts.shape = node.shape := by
  simp [withoutFacts, shape, Function.comp_def]

/-- Adding facts changes nothing else. -/
theorem withoutFacts_annotate (list : InstructionList) (isEntry : Bool) (node : Instruction) :
    (Constants.annotate list isEntry node).withoutFacts = node.withoutFacts := by
  simp [withoutFacts, Constants.annotate, Constants.annotateMemory, Constants.annotateQubit,
    Function.comp_def]

end Instruction

namespace InstructionList

/-- Whether two lists agree on everything but what is known about occurrences. -/
structure SameButFacts (a b : InstructionList) : Prop where
  order : a.order = b.order
  nodes : a.nodes.map Instruction.withoutFacts = b.nodes.map Instruction.withoutFacts

theorem SameButFacts.refl (list : InstructionList) : SameButFacts list list := ⟨rfl, rfl⟩

theorem SameButFacts.trans {a b c : InstructionList} (hab : SameButFacts a b)
    (hbc : SameButFacts b c) : SameButFacts a c :=
  ⟨hab.order.trans hbc.order, hab.nodes.trans hbc.nodes⟩

theorem SameButFacts.symm {a b : InstructionList} (h : SameButFacts a b) : SameButFacts b a :=
  ⟨h.order.symm, h.nodes.symm⟩

theorem SameButFacts.length {a b : InstructionList} (h : SameButFacts a b) :
    a.nodes.length = b.nodes.length := by
  simpa using congrArg List.length h.nodes

theorem SameButFacts.getElem? {a b : InstructionList} (h : SameButFacts a b) {id : Nat}
    {node : Instruction} (found : a.nodes[id]? = some node) :
    ∃ other, b.nodes[id]? = some other ∧ node.withoutFacts = other.withoutFacts := by
  have same := congrArg (fun nodes : List Instruction => nodes[id]?) h.nodes
  simp only [List.getElem?_map, found, Option.map_some] at same
  obtain ⟨other, there, eq⟩ := Option.map_eq_some_iff.mp same.symm
  exact ⟨other, there, eq.symm⟩

theorem SameButFacts.sameShape {a b : InstructionList} (h : SameButFacts a b) : SameShape a b := by
  have shapes : ∀ nodes : List Instruction,
      (nodes.map Instruction.withoutFacts).map Instruction.shape = nodes.map Instruction.shape := by
    intro nodes
    rw [List.map_map]
    exact List.map_congr_left (fun node _ => Instruction.shape_withoutFacts node)
  refine ⟨h.order, ?_⟩
  rw [← shapes a.nodes, h.nodes, shapes]

theorem SameButFacts.complete {a b : InstructionList} {names : List String} (h : SameButFacts a b)
    (complete : Complete names a) : Complete names b := by
  intro id node found
  obtain ⟨other, there, same⟩ := h.symm.getElem? found
  have operation := congrArg Instruction.operation same
  have memory := congrArg (fun n : Instruction => n.memory.map (fun o => (o.name, o.use))) same
  simp only [Instruction.withoutFacts, List.map_map, Function.comp_def] at operation memory
  rw [operation]
  exact (complete there).congr memory.symm

variable {list : InstructionList} {id : Nat} {node : Instruction} {name : String}

theorem memoryBefore?_eq_some (chained : list.Chained) (running : id ∈ list.order)
    (found : list.nodes[id]? = some node) {value : Number}
    (known : list.memoryBefore? node name = some value) :
    ∃ previous before o, Nearest.below? (list.isHolder (.memory name)) id = some previous ∧
      list.nodes[previous]? = some before ∧ before.memory? name = some o ∧ o.value = some value := by
  unfold memoryBefore? at known
  split at known
  · next previous linked =>
      obtain ⟨o, there, links⟩ := Option.map_eq_some_iff.mp linked
      have own : node.links? (.memory name) = some o.links := by simp [Instruction.links?, there]
      have exact := chained.exact running found own
      rw [exact] at links
      obtain ⟨before, beforeFound, rest⟩ := Option.bind_eq_some_iff.mp known
      obtain ⟨other, otherFound, otherKnown⟩ := Option.bind_eq_some_iff.mp rest
      refine ⟨previous, before, other, ?_, beforeFound, otherFound, otherKnown⟩
      exact Option.toList_eq_singleton_iff.mp links
  · cases known

theorem getElem?_annotateAt (isEntry : Bool) (found : list.nodes[id]? = some node) (other : Nat) :
    (Constants.annotateAt isEntry list id).nodes[other]? =
      if id = other then some (Constants.annotate list isEntry node) else list.nodes[other]? := by
  simp only [Constants.annotateAt, get?, found, modify, List.getElem?_modify]
  split
  · next same => simp [← same, found]
  · simp

theorem sameButFacts_annotateAt (isEntry : Bool) (list : InstructionList) (id : Nat) :
    SameButFacts list (Constants.annotateAt isEntry list id) := by
  cases found : list.nodes[id]? with
  | none =>
      simp only [Constants.annotateAt, get?, found]
      exact .refl list
  | some node =>
      refine ⟨by simp [Constants.annotateAt, get?, found, modify], ?_⟩
      apply List.ext_getElem?
      intro other
      rw [List.getElem?_map, List.getElem?_map, getElem?_annotateAt isEntry found]
      split
      · next same => simp [← same, found, Instruction.withoutFacts_annotate]
      · rfl

theorem annotateAll_fst (isEntry : Bool) (list : InstructionList) (ids : List Nat) :
    (Constants.annotateAll isEntry list ids).1 = ids.foldl (Constants.annotateAt isEntry) list := by
  induction ids generalizing list with
  | nil => rfl
  | cons id rest ih => exact ih (Constants.annotateAt isEntry list id)

theorem sameButFacts_foldl (isEntry : Bool) (list : InstructionList) (ids : List Nat) :
    SameButFacts list (ids.foldl (Constants.annotateAt isEntry) list) := by
  induction ids generalizing list with
  | nil => exact .refl list
  | cons id rest ih => exact (sameButFacts_annotateAt isEntry list id).trans (ih _)

end InstructionList

end TwoLane
