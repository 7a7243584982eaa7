import TwoLane.Optimize.Removal
import TwoLane.Proofs.Chain.Links

/-! # Removing instructions

Taking an instruction off its chains changes links only. So a removal of instructions that a list has never fails,
and what still runs is what ran before, in the same order.
-/

namespace TwoLane.InstructionList

open Instruction (withoutLinks)

/-- Whether two lists agree on everything but the neighbours on chains. -/
structure SameButLinks (a b : InstructionList) : Prop where
  order : a.order = b.order
  nodes : a.nodes.map withoutLinks = b.nodes.map withoutLinks
  block : a.block = b.block
  name : a.name = b.name
  successors : a.successors = b.successors

theorem SameButLinks.refl (list : InstructionList) : SameButLinks list list :=
  ⟨rfl, rfl, rfl, rfl, rfl⟩

theorem SameButLinks.trans {a b c : InstructionList} (hab : SameButLinks a b)
    (hbc : SameButLinks b c) : SameButLinks a c :=
  ⟨hab.order.trans hbc.order, hab.nodes.trans hbc.nodes, hab.block.trans hbc.block,
    hab.name.trans hbc.name, hab.successors.trans hbc.successors⟩

theorem SameButLinks.symm {a b : InstructionList} (same : SameButLinks a b) : SameButLinks b a :=
  ⟨same.order.symm, same.nodes.symm, same.block.symm, same.name.symm, same.successors.symm⟩

theorem SameButLinks.length {a b : InstructionList} (same : SameButLinks a b) :
    a.nodes.length = b.nodes.length := by
  simpa using congrArg List.length same.nodes

theorem SameButLinks.getElem? {a b : InstructionList} (same : SameButLinks a b) {id : Nat}
    {node : Instruction} (found : a.nodes[id]? = some node) :
    ∃ other, b.nodes[id]? = some other ∧ node.withoutLinks = other.withoutLinks := by
  have views := congrArg (fun nodes : List Instruction => nodes[id]?) same.nodes
  simp only [List.getElem?_map, found, Option.map_some] at views
  obtain ⟨other, there, eq⟩ := Option.map_eq_some_iff.mp views.symm
  exact ⟨other, there, eq.symm⟩

theorem SameButLinks.withOrder {a b : InstructionList} (same : SameButLinks a b)
    {order order' : List Nat} (orders : order = order') :
    SameButLinks { a with order := order } { b with order := order' } :=
  ⟨orders, same.nodes, same.block, same.name, same.successors⟩

theorem SameButLinks.running {a b : InstructionList} (same : SameButLinks a b) :
    a.running.map withoutLinks = b.running.map withoutLinks := by
  have each : ∀ id, (a.get? id).map withoutLinks = (b.get? id).map withoutLinks := by
    intro id
    rw [get?, get?, ← List.getElem?_map, ← List.getElem?_map, same.nodes]
  rw [InstructionList.running, InstructionList.running, List.map_filterMap, List.map_filterMap,
    same.order]
  exact List.filterMap_congr (fun id _ => each id)

/-- Whether instructions have the numbers of their places, and run once at most. -/
structure Orderly (list : InstructionList) : Prop where
  numbered : ∀ {id : Nat} {node : Instruction}, list.nodes[id]? = some node → node.id = id
  order : list.order.Nodup
  inside : ∀ id ∈ list.order, id < list.nodes.length

theorem SameButLinks.orderly {a b : InstructionList} (same : SameButLinks a b) (orderly : a.Orderly) : b.Orderly where
  numbered := by
    intro id node found
    obtain ⟨other, there, equal⟩ := same.symm.getElem? found
    exact (Instruction.id_congr equal).trans (orderly.numbered there)
  order := same.order ▸ orderly.order
  inside := by
    rw [← same.order, ← same.length]
    exact orderly.inside

theorem Orderly.filter {list : InstructionList} (orderly : list.Orderly) (keeps : Nat → Bool) :
    Orderly { list with order := list.order.filter keeps } :=
  ⟨orderly.numbered, orderly.order.filter keeps, fun id member => orderly.inside id (List.mem_filter.mp member).1⟩

/-! ## Taking instructions off their chains -/

theorem sameButLinks_modify (list : InstructionList) (id : Nat) (resource : Resource)
    (change : Links → Links) :
    SameButLinks list (list.modify id (fun node => node.modifyLinks resource change)) where
  order := rfl
  nodes := by
    apply List.ext_getElem?
    intro other
    rw [modify, List.getElem?_map, List.getElem?_map, List.getElem?_modify]
    cases list.nodes[other]? with
    | none => rfl
    | some node =>
        by_cases here : id = other
        · simp [here]
        · simp [here]
  block := rfl
  name := rfl
  successors := rfl

theorem sameButLinks_modifyLinksOf (list : InstructionList) (ids : List Nat) (resource : Resource)
    (change : Links → Links) : SameButLinks list (list.modifyLinksOf ids resource change) := by
  unfold modifyLinksOf
  induction ids generalizing list with
  | nil => exact .refl list
  | cons id rest ih => exact (sameButLinks_modify list id resource change).trans (ih _)

theorem sameButLinks_unlink (list : InstructionList) (id : Nat) (resource : Resource) :
    SameButLinks list (list.unlink id resource) := by
  unfold unlink
  split
  · exact .refl list
  · next links _ =>
      dsimp only
      exact ((sameButLinks_modifyLinksOf list links.previous resource _).trans
        (sameButLinks_modifyLinksOf _ links.next resource _)).trans
          (sameButLinks_modify _ id resource _)

theorem sameButLinks_foldl_unlink (list : InstructionList) (id : Nat) (resources : List Resource) :
    SameButLinks list (resources.foldl (fun acc resource => acc.unlink id resource) list) := by
  induction resources generalizing list with
  | nil => exact .refl list
  | cons resource rest ih => exact (sameButLinks_unlink list id resource).trans (ih _)

theorem remove_eq_ok {list : InstructionList} {id : Nat} (inside : id < list.nodes.length) :
    ∃ after, list.remove id = .ok after ∧
      SameButLinks { list with order := list.order.filter (fun other => other != id) } after := by
  have found : list.get id = .ok list.nodes[id] := by simp [get, get?, inside]
  have spliced := sameButLinks_foldl_unlink list id list.nodes[id].resources
  refine ⟨_, by simp only [remove, spliceOut, found]; rfl, ?_⟩
  exact spliced.withOrder (congrArg _ spliced.order)

theorem removeAll_eq_ok {list : InstructionList} {ids : List Nat}
    (inside : ∀ id ∈ ids, id < list.nodes.length) :
    ∃ after, list.removeAll ids = .ok after ∧
      SameButLinks { list with order := list.order.filter (fun other => !ids.contains other) }
        after := by
  induction ids generalizing list with
  | nil => exact ⟨list, rfl, (SameButLinks.refl list).withOrder (by simp)⟩
  | cons id rest ih =>
      obtain ⟨first, removed, same⟩ := remove_eq_ok (inside id List.mem_cons_self)
      have insideRest : ∀ other ∈ rest, other < first.nodes.length := by
        intro other member
        rw [← same.length]
        exact inside other (List.mem_cons_of_mem _ member)
      obtain ⟨after, removedRest, sameRest⟩ := ih insideRest
      refine ⟨after, ?_, ?_⟩
      · rw [removeAll, List.foldlM_cons, removed]
        exact removedRest
      · refine SameButLinks.trans (same.withOrder ?_) sameRest
        rw [← same.order, List.filter_filter]
        apply List.filter_congr
        intro other _
        rw [List.contains_cons, Bool.not_or, Bool.and_comm]
        rfl

theorem removeControl_eq_ok {list : InstructionList}
    (numbered : ∀ {id : Nat} {node : Instruction}, list.nodes[id]? = some node → node.id = id) :
    ∃ after, list.removeAll list.controlIds = .ok after ∧
      list.removeControl = .ok (after, list.controlIds.length) := by
  have inside : ∀ id ∈ list.controlIds, id < list.nodes.length := by
    intro id member
    have all : id ∈ (list.running.filter (fun node => node.category == .control)).map Instruction.id := by
      unfold controlIds at member
      dsimp only at member
      split at member
      · exact List.dropLast_subset _ member
      · exact member
    obtain ⟨node, running, rfl⟩ := List.mem_map.mp all
    obtain ⟨id, _, found⟩ := List.mem_filterMap.mp (List.mem_filter.mp running).1
    rw [numbered found]
    exact (List.getElem?_eq_some_iff.mp found).1
  obtain ⟨after, removed, _⟩ := removeAll_eq_ok inside
  exact ⟨after, removed, by rw [removeControl, removed]; rfl⟩

end TwoLane.InstructionList
