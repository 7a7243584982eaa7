import TwoLane.Proofs.Chain.Edits
import TwoLane.Proofs.Execution.Becoming
import TwoLane.Proofs.Liveness.Judged

/-! # Lists that steps have changed

A family starts with lists of new instructions, each with the lists that may run next, and goes on with what any steps
make of it. What new lists have and no step takes away holds however far the steps have come.
-/

namespace TwoLane

open Execution (Evolves allEvolve_perform)

namespace InstructionList

variable {list after : InstructionList} {apart : List Nat}

/-- Steps keep chains exact. -/
theorem Threaded.evolves (threaded : list.Threaded apart) {map : HybridMap} {index : Nat}
    (evolves : Evolves map index list after) : after.Threaded apart := by
  cases evolves with
  | stays => exact threaded
  | marked judged => exact threaded.sameShape (sameShape_mark list judged)
  | annotated => exact threaded.propagateList index
  | folded => exact threaded.foldList index
  | removed _ removal => exact threaded.removeAll removal
  | reordered _ installed => exact threaded.reorder installed

end InstructionList

namespace Indexed

/-- New instructions of a block and the lists that may run next. -/
structure Part where
  block : Nat
  title : String
  nodes : List Instruction
  successors : List Nat

namespace Part

def list (part : Part) : InstructionList :=
  { InstructionList.ofNodes part.block part.title part.nodes with successors := part.successors }

variable {part : Part}

theorem length_list (part : Part) : part.list.nodes.length = part.nodes.length :=
  have length : (InstructionList.ofNodes part.block part.title part.nodes).nodes.length = part.nodes.length :=
    InstructionList.length_ofNodes
  length

theorem chained_of_isNew (new : ∀ node ∈ part.nodes, node.IsNew) : part.list.Chained :=
  have chained : (InstructionList.ofNodes part.block part.title part.nodes).Chained :=
    InstructionList.chained_ofNodes new
  ⟨chained.numbered, chained.order, chained.inside, chained.distinct, chained.exact⟩

theorem threaded_of_isNew (new : ∀ node ∈ part.nodes, node.IsNew) : part.list.Threaded [] :=
  (chained_of_isNew new).threaded (fun _ inside => List.mem_range.mpr (part.length_list ▸ inside))

end Part

end Indexed

namespace Liveness

open Indexed (Part)

variable {lists : List InstructionList} {parts : List Part} {state : Workspace}

/-- The workspaces that steps make of the lists of new instructions, whether they succeed or not. -/
inductive Worked (parts : List Part) : Workspace → Prop where
  | new (readout : List String) : Worked parts (.ofLists (parts.map Part.list) readout)
  | step {state : Workspace} (step : Step) (worked : Worked parts state) : Worked parts (step.perform state).1
  | forget {state : Workspace} (worked : Worked parts state) : Worked parts state.forgetHybrids

/-- What new lists have and evolution keeps, all lists have that steps have changed. -/
theorem Worked.induction {property : InstructionList → Prop} (start : ∀ part ∈ parts, property part.list)
    (kept : ∀ {map index list after}, property list → Evolves map index list after → property after)
    (worked : Worked parts state) : ∀ list ∈ state.lists, property list := by
  induction worked with
  | new readout =>
      intro list member
      obtain ⟨part, there, rfl⟩ := List.mem_map.mp member
      exact start part there
  | @step state step _ ih =>
      intro after member
      obtain ⟨list, there, _, _, evolves⟩ := (allEvolve_perform step state).exists_mem member
      exact kept (ih list there) evolves
  | forget _ ih => exact ih

/-- Whether instructions have the numbers of their places, and occurrences for what they write. -/
structure Tended (list : InstructionList) : Prop where
  numbered : ∀ {id : Nat} {node : Instruction}, list.nodes[id]? = some node → node.id = id
  assigns : ∀ node ∈ list.nodes, Assigns node

theorem tended_new {part : Part} (new : ∀ node ∈ part.nodes, node.IsNew) : Tended part.list where
  numbered := (Part.chained_of_isNew new).numbered
  assigns := by
    have assigned : ∀ node ∈ (InstructionList.ofNodes part.block part.title part.nodes).running, Assigns node :=
      assigns_ofNodes new
    intro node member
    obtain ⟨id, found⟩ := List.mem_iff_getElem?.mp member
    have inside := (List.getElem?_eq_some_iff.mp found).1
    rw [part.length_list] at inside
    exact assigned node (List.mem_filterMap.mpr ⟨id, List.mem_range.mpr inside, found⟩)

theorem Tended.evolves {list after : InstructionList} (tended : Tended list) {map : HybridMap} {index : Nat}
    (evolves : Evolves map index list after) : Tended after := by
  have becomes := evolves.becomes tended.numbered
  refine ⟨?_, fun node member => ?_⟩
  · intro id node found
    obtain ⟨before, there, becomes⟩ := becomes.nodes found
    exact becomes.id.trans (tended.numbered there)
  · obtain ⟨id, found⟩ := List.mem_iff_getElem?.mp member
    obtain ⟨before, there, becomes⟩ := becomes.nodes found
    exact becomes.assigns (tended.assigns before (List.mem_of_getElem? there))

theorem allAssign_of_tended (tended : ∀ list ∈ lists, Tended list) : AllAssign lists := by
  intro list member node running
  obtain ⟨id, _, found⟩ := List.mem_filterMap.mp running
  exact (tended list member).assigns node (List.mem_of_getElem? found)

variable (new : ∀ part ∈ parts, ∀ node ∈ part.nodes, node.IsNew) (worked : Worked parts state)
include new worked

theorem Worked.tended : ∀ list ∈ state.lists, Tended list :=
  worked.induction (fun part there => tended_new (new part there)) (fun tended evolves => tended.evolves evolves)

theorem Worked.threaded : ∀ list ∈ state.lists, list.Threaded [] :=
  worked.induction (fun part there => Part.threaded_of_isNew (new part there))
    (fun threaded evolves => threaded.evolves evolves)

theorem Worked.orderly : ∀ list ∈ state.lists, list.Orderly := by
  intro list member
  have threaded := worked.threaded new list member
  exact ⟨threaded.numbered, threaded.order, threaded.inside⟩

end Liveness

end TwoLane
