import TwoLane.Optimize.Hybrid
import TwoLane.Proofs.Chain.Facts
import TwoLane.Proofs.Schedule.Balanced
import TwoLane.Proofs.Sorted

/-! # Hybrid maps hold

The map that is found for a list holds of it, as long as the list keeps its lines, categories and chains.
-/

namespace TwoLane.HybridMap

open InstructionList (LinesDiffer)
open Schedule (Valid)

variable {list after : InstructionList} {map : HybridMap}

theorem holds_ofList (valid : Valid list) (lines : LinesDiffer list) : (HybridMap.ofList list).Holds list := by
  have entries : ∀ {line lines}, (line, lines) ∈ HybridMap.ofList list → ∃ id ∈ list.order, ∃ node,
      list.nodes[id]? = some node ∧ node.line = line ∧ node.category.isHybrid = true ∧
        requiredLines list node = lines := by
    intro line lines member
    obtain ⟨node, hybrid, same⟩ := List.mem_map.mp (Table.mem_of_mem_ofList member)
    obtain ⟨running, isHybrid⟩ := List.mem_filter.mp hybrid
    obtain ⟨id, runs, found⟩ := List.mem_filterMap.mp running
    obtain ⟨own, required⟩ := Prod.mk.inj same
    exact ⟨id, runs, node, found, own, isHybrid, required⟩
  refine ⟨?_, ?_⟩
  · intro line key
    obtain ⟨⟨_, lines⟩, member, rfl⟩ := List.mem_map.mp key
    obtain ⟨id, runs, node, found, own, isHybrid, _⟩ := entries member
    exact ⟨id, runs, node, found, own, isHybrid⟩
  · intro id runs node found lines looked other otherRuns there thereFound mapped
    obtain ⟨id', runs', node', found', own, _, rfl⟩ := entries (Table.mem_of_get? looked)
    have same := lines runs' runs found' found own
    subst same
    cases found.symm.trans found'
    obtain ⟨needed, isNeeded, line⟩ := List.mem_map.mp (Sorted.mem_ofList.mp mapped)
    obtain ⟨dependency, isDependency, neededFound⟩ := List.mem_filterMap.mp (List.mem_filter.mp isNeeded).1
    rw [valid.numbered found] at isDependency
    have neededRuns := (valid.emission.of_dependency runs isDependency).1
    rw [← lines neededRuns otherRuns neededFound thereFound line]
    exact isDependency

/-! ## Lists that keep what a map looks at -/

/-- What a hybrid map looks at in an instruction. -/
def standing (node : Instruction) : Nat × Category × Instruction :=
  (node.line, node.category, node.shape)

/-- Whether two lists have the same running instructions, with the same lines, categories and links. -/
structure SameStanding (list after : InstructionList) : Prop where
  order : ∀ id, id ∈ after.order ↔ id ∈ list.order
  nodes : after.nodes.map standing = list.nodes.map standing

theorem SameStanding.refl (list : InstructionList) : SameStanding list list :=
  ⟨fun _ => .rfl, rfl⟩

theorem previous_shape (node : Instruction) : node.shape.previous = node.previous := by
  simp [Instruction.previous, Instruction.shape, List.flatMap_map]

theorem SameStanding.getElem? (same : SameStanding list after) {id : Nat} {node : Instruction}
    (found : after.nodes[id]? = some node) : ∃ before, list.nodes[id]? = some before ∧ node.id = before.id ∧
      node.line = before.line ∧ node.category = before.category ∧ node.previous = before.previous := by
  have views := congrArg (fun nodes : List (Nat × Category × Instruction) => nodes[id]?) same.nodes
  simp only [List.getElem?_map, found, Option.map_some] at views
  obtain ⟨before, there, equal⟩ := Option.map_eq_some_iff.mp views.symm
  obtain ⟨line, rest⟩ := Prod.mk.inj equal
  obtain ⟨category, shape⟩ := Prod.mk.inj rest
  refine ⟨before, there, (congrArg Instruction.id shape).symm, line.symm, category.symm, ?_⟩
  rw [← previous_shape, ← shape, previous_shape]

theorem SameStanding.symm (same : SameStanding list after) : SameStanding after list :=
  ⟨fun id => (same.order id).symm, same.nodes.symm⟩

theorem SameStanding.predecessors (same : SameStanding list after) : after.predecessors = list.predecessors := by
  funext id
  rw [InstructionList.predecessors, InstructionList.predecessors, InstructionList.get?, InstructionList.get?]
  cases found : after.nodes[id]? with
  | some node =>
      obtain ⟨before, there, _, _, _, previous⟩ := same.getElem? found
      rw [there]
      dsimp only
      rw [previous]
  | none =>
      cases there : list.nodes[id]? with
      | none => rfl
      | some before =>
          obtain ⟨_, other, _⟩ := same.symm.getElem? there
          rw [found] at other
          cases other

theorem SameStanding.linkCount (same : SameStanding list after) : after.linkCount = list.linkCount := by
  have links : ∀ nodes : List Instruction, nodes.flatMap Instruction.previous =
      (nodes.map standing).flatMap (fun s => s.2.2.previous) := by
    intro nodes
    rw [List.flatMap_map]
    exact List.flatMap_congr (fun node _ => by rw [standing, previous_shape])
  rw [InstructionList.linkCount, InstructionList.linkCount, links, links, same.nodes]

theorem SameStanding.dependencies (same : SameStanding list after) (id : Nat) :
    after.dependencies id = list.dependencies id := by
  rw [InstructionList.dependencies, InstructionList.dependencies, same.predecessors, same.linkCount]

theorem SameStanding.requiredLines (same : SameStanding list after) {node node' : Instruction}
    (number : node'.id = node.id) : requiredLines after node' = requiredLines list node := by
  have standings : ∀ ids : List Nat,
      (ids.filterMap after.get?).map standing = (ids.filterMap list.get?).map standing := by
    intro ids
    rw [List.map_filterMap, List.map_filterMap]
    refine List.filterMap_congr (fun id _ => ?_)
    rw [InstructionList.get?, InstructionList.get?, ← List.getElem?_map, ← List.getElem?_map, same.nodes]
  have views : ∀ list : InstructionList, ∀ node : Instruction, HybridMap.requiredLines list node =
      Sorted.ofList (((((list.dependencies node.id).filterMap list.get?).map standing).filter
        (fun s => !s.2.1.isHybrid)).map Prod.fst) := by
    intro list node
    rw [HybridMap.requiredLines, List.filter_map, List.map_map]
    rfl
  rw [views, views, number, same.dependencies, standings]

def entry (list : InstructionList) (id : Nat) : Option (Nat × List Nat) :=
  (list.get? id).bind (fun node =>
    if node.category.isHybrid then some (node.line, requiredLines list node) else none)

theorem ofList_eq_entries (list : InstructionList) :
    HybridMap.ofList list = Table.ofList (list.order.filterMap (entry list)) := by
  rw [HybridMap.ofList, InstructionList.running, ← List.filterMap_eq_filter, ← List.filterMap_eq_map,
    List.filterMap_filterMap, List.filterMap_filterMap]
  congr 1
  refine List.filterMap_congr (fun id _ => ?_)
  rw [entry]
  cases list.get? id with
  | none => rfl
  | some node => cases hybrid : node.category.isHybrid <;> simp [hybrid]

theorem SameStanding.entry (same : SameStanding list after) : entry after = entry list := by
  funext id
  rw [HybridMap.entry, HybridMap.entry, InstructionList.get?, InstructionList.get?]
  cases found : after.nodes[id]? with
  | some node =>
      obtain ⟨before, there, number, line, category, _⟩ := same.getElem? found
      rw [there, Option.bind_some, Option.bind_some, line, category, same.requiredLines number]
  | none =>
      cases there : list.nodes[id]? with
      | none => rfl
      | some before =>
          obtain ⟨_, other, _⟩ := same.symm.getElem? there
          rw [found] at other
          cases other

theorem nodup_keys_entries (order : list.order.Nodup) (lines : LinesDiffer list) :
    ((list.order.filterMap (entry list)).map Prod.fst).Nodup := by
  rw [List.Nodup, List.pairwise_map, List.pairwise_filterMap]
  refine List.Pairwise.imp_of_mem (fun {i j} iRuns jRuns differ a aIs b bIs same => differ ?_) order
  obtain ⟨node, found, isA⟩ := Option.bind_eq_some_iff.mp aIs
  obtain ⟨node', found', isB⟩ := Option.bind_eq_some_iff.mp bIs
  split at isA <;> cases isA
  split at isB <;> cases isB
  exact lines iRuns jRuns found found' same

theorem SameStanding.ofList_eq (same : SameStanding list after) (valid : Valid list) (order : after.order.Nodup)
    (lines : LinesDiffer list) : HybridMap.ofList after = HybridMap.ofList list := by
  have perm : list.order.Perm after.order :=
    (List.perm_ext_iff_of_nodup valid.emission.distinct order).mpr (fun id => (same.order id).symm)
  rw [ofList_eq_entries, ofList_eq_entries, same.entry]
  exact (Table.ofList_perm (perm.filterMap _) (nodup_keys_entries valid.emission.distinct lines)).symm

theorem sameStanding_propagate (index : Nat) (list : InstructionList) :
    SameStanding list (Constants.propagateList index list).1 := by
  have same : InstructionList.SameButFacts list (Constants.propagateList index list).1 := by
    rw [Constants.propagateList, InstructionList.annotateAll_fst]
    exact InstructionList.sameButFacts_foldl _ list list.order
  have views : ∀ nodes : List Instruction, nodes.map standing = (nodes.map Instruction.withoutFacts).map standing := by
    intro nodes
    rw [List.map_map]
    refine List.map_congr_left (fun node _ => ?_)
    rw [Function.comp_apply, standing, standing, Instruction.shape_withoutFacts]
    rfl
  exact ⟨fun id => by rw [same.order], by rw [views, ← same.nodes, ← views]⟩

theorem sameStanding_mark (list : InstructionList) (judged : List InstructionLiveness) :
    SameStanding list (Liveness.mark list judged) := by
  rw [Liveness.mark]
  induction judged generalizing list with
  | nil => exact .refl list
  | cons first rest ih =>
      have next := ih (list.modify first.id (fun node => { node with dead := first.dead }))
      refine ⟨next.order, next.nodes.trans ?_⟩
      apply List.ext_getElem?
      intro id
      rw [InstructionList.modify, List.getElem?_map, List.getElem?_map, List.getElem?_modify]
      cases list.nodes[id]? with
      | none => rfl
      | some node =>
          by_cases here : first.id = id
          · simp [here, standing, Instruction.shape]
          · simp [here]

end TwoLane.HybridMap
