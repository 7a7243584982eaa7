import TwoLane.Optimize.Workspace
import TwoLane.Proofs.Block.Reach
import TwoLane.Proofs.Chain.Exact
import TwoLane.Proofs.Chain.Removal
import TwoLane.Proofs.Liveness.Fixpoint

/-! # What a removal leaves

A removal takes from each list that control can reach the instructions that are judged dead, and never fails. Lists
along a path from the first one can all be reached.
-/

namespace TwoLane

namespace InstructionList

variable {list : InstructionList}

theorem id_of_mem_running (numbered : ∀ {id : Nat} {node : Instruction}, list.nodes[id]? = some node → node.id = id)
    {node : Instruction} (member : node ∈ list.running) :
    node.id ∈ list.order ∧ list.nodes[node.id]? = some node := by
  obtain ⟨id, running, found⟩ := List.mem_filterMap.mp member
  rw [numbered found]
  exact ⟨running, found⟩

theorem map_id_running (numbered : ∀ {id : Nat} {node : Instruction}, list.nodes[id]? = some node → node.id = id)
    (inside : ∀ id ∈ list.order, id < list.nodes.length) : list.running.map Instruction.id = list.order := by
  have all : ∀ order : List Nat, (∀ id ∈ order, id < list.nodes.length) →
      (order.filterMap list.get?).map Instruction.id = order := by
    intro order inside
    induction order with
    | nil => rfl
    | cons id rest ih =>
        have found := List.getElem?_eq_getElem (inside id List.mem_cons_self)
        have further := ih (fun other member => inside other (List.mem_cons_of_mem _ member))
        rw [List.filterMap_cons_some (show list.get? id = some _ from found), List.map_cons, further,
          numbered found]
  exact all list.order inside

theorem Chained.orderly (chained : list.Chained) : list.Orderly :=
  ⟨chained.numbered, chained.order, chained.inside⟩

theorem running_filter (orderly : list.Orderly) (ids : List Nat) :
    InstructionList.running { list with order := list.order.filter (fun id => !ids.contains id) } =
      list.running.filter (fun node => !ids.contains node.id) := by
  change (list.order.filter (fun id => !ids.contains id)).filterMap list.get? =
    (list.order.filterMap list.get?).filter (fun node => !ids.contains node.id)
  rw [List.filterMap_filter, List.filter_filterMap]
  apply List.filterMap_congr
  intro id _
  cases found : list.get? id with
  | none => simp
  | some node =>
      rw [Option.filter_some, orderly.numbered found]

end InstructionList

namespace Liveness

variable {readout : List String} {live : LiveSet}

/-- The instructions that are not dead, given what is live behind the last one. -/
def survivors (readout : List String) (live : LiveSet) : List Instruction → List Instruction
  | [] => []
  | node :: rest =>
      if isDead (rest.foldr (before readout) live) readout node then survivors readout live rest
      else node :: survivors readout live rest

theorem judge_fst (nodes : List Instruction) :
    (judge readout live nodes).1 = nodes.foldr (before readout) live := by
  induction nodes with
  | nil => rfl
  | cons node rest ih => rw [List.foldr_cons, ← ih, judge]

theorem deadIds_cons (node : Instruction) (rest : List Instruction) :
    deadIds (judge readout live (node :: rest)).2 =
      if isDead (rest.foldr (before readout) live) readout node then
        node.id :: deadIds (judge readout live rest).2
      else deadIds (judge readout live rest).2 := by
  rw [judge, ← judge_fst, deadIds]
  dsimp only
  split
  · next dead =>
      rw [List.filter_cons_of_pos (show (verdict readout node _).dead = true from dead)]
      rfl
  · next kept =>
      rw [List.filter_cons_of_neg (show ¬ (verdict readout node _).dead = true from kept)]
      rfl

theorem deadIds_subset (nodes : List Instruction) :
    deadIds (judge readout live nodes).2 ⊆ nodes.map Instruction.id := by
  induction nodes with
  | nil => exact List.nil_subset _
  | cons node rest ih =>
      rw [deadIds_cons, List.map_cons]
      split
      · exact List.cons_subset_cons _ ih
      · exact List.subset_cons_of_subset _ ih

theorem filter_deadIds {nodes : List Instruction} (distinct : (nodes.map Instruction.id).Nodup) :
    nodes.filter (fun node => !(deadIds (judge readout live nodes).2).contains node.id) =
      survivors readout live nodes := by
  induction nodes with
  | nil => rfl
  | cons node rest ih =>
      rw [List.map_cons, List.nodup_cons] at distinct
      have absent : node.id ∉ deadIds (judge readout live rest).2 :=
        fun there => distinct.1 (deadIds_subset rest there)
      rw [survivors, deadIds_cons, ← ih distinct.2]
      split
      · rw [List.filter_cons_of_neg (by simp)]
        apply List.filter_congr
        intro other member
        have differ : other.id ≠ node.id :=
          fun same => distinct.1 (same ▸ List.mem_map_of_mem member)
        simp [differ]
      · rw [List.filter_cons_of_pos (by simpa using absent)]

theorem assigns_ofNodes {block : Nat} {title : String} {nodes : List Instruction}
    (new : ∀ node ∈ nodes, node.IsNew) :
    ∀ node ∈ (InstructionList.ofNodes block title nodes).running, Assigns node := by
  intro node member written isWritten
  obtain ⟨id, _, found⟩ := List.mem_filterMap.mp member
  obtain ⟨old, there, operation⟩ := InstructionList.operation_ofNodes found
  have touches := InstructionList.complete_ofNodes new found
  obtain ⟨access, named, rfl⟩ := List.mem_map.mp isWritten
  obtain ⟨own, writes⟩ := List.mem_filter.mp named
  have known : access.name ∈ InstructionList.memoryNames nodes := by
    refine Sorted.mem_ofList.mpr (List.mem_flatMap.mpr ⟨old, there, ?_⟩)
    rw [(new old there).memory.names, operation]
    exact ⟨access, own, rfl⟩
  have present : access.name ∈ node.memory.map MemoryOccurrence.name :=
    (touches.names _).mpr ⟨known, access, own, Memory.mayOverlap_self _⟩
  obtain ⟨o, oIn, same⟩ := List.mem_map.mp present
  refine ⟨o, oIn, same, ?_⟩
  have use := (touches.named o oIn ⟨access, own, same.symm⟩).mpr ⟨access, own, same.symm, by simpa using writes⟩
  rw [MemoryOccurrence.isAssignment, use]
  rfl

/-! ## Lists along a path -/

/-- Whether a path goes from each list to one of its successors. -/
def Follows (lists : List InstructionList) (path : List Nat) : Prop :=
  path.IsChain (fun i j => ∃ list, lists[i]? = some list ∧ j ∈ list.successors)

variable {lists : List InstructionList}

theorem reached_of_follows {path : List Nat} {start : Nat} {found : List Nat}
    (follows : Follows lists (start :: path)) (begins : start < lists.length → start ∈ found)
    (closed : ∀ node ∈ found, ∀ next ∈ DeadCode.successors lists node, next ∈ found) :
    ∀ i ∈ start :: path, i < lists.length → i ∈ found := by
  induction path generalizing start with
  | nil =>
      intro i member inside
      cases List.mem_singleton.mp member
      exact begins inside
  | cons next path ih =>
      obtain ⟨⟨list, there, goes⟩, further⟩ := List.isChain_cons_cons.mp follows
      have here := begins (List.getElem?_eq_some_iff.mp there).1
      have onward : next < lists.length → next ∈ found := by
        intro inside
        refine closed start here next ?_
        simp only [DeadCode.successors, there]
        exact List.mem_filter.mpr ⟨goes, decide_eq_true inside⟩
      intro i member inside
      rcases List.mem_cons.mp member with rfl | later
      · exact begins inside
      · exact ih further onward i later inside

theorem lt_of_mem_successors {node next : Nat} (goes : next ∈ DeadCode.successors lists node) : next < lists.length := by
  unfold DeadCode.successors at goes
  split at goes
  · exact of_decide_eq_true (List.mem_filter.mp goes).2
  · cases goes

theorem not_unreachable {path : List Nat} (follows : Follows lists path) (begins : path.head? = some 0)
    {i : Nat} (member : i ∈ path) : i ∉ DeadCode.unreachable lists := by
  intro unreachable
  obtain ⟨inside, unseen⟩ := List.mem_filter.mp unreachable
  rw [List.mem_range] at inside
  cases path with
  | nil => cases begins
  | cons start path =>
      cases begins
      obtain ⟨root, closed⟩ := Reach.fromRoot_complete (fun _ _ goes => lt_of_mem_successors goes)
        (Nat.zero_lt_of_lt inside)
      have seen := reached_of_follows follows (fun _ => root) closed i member inside
      simp [seen] at unseen

/-! ## The lists that are left -/

theorem removeDeadFrom_cons (dead : DeadCode) (index : Nat) {list after : InstructionList}
    (removed : list.removeAll (dead.toRemove index list) = .ok after) (rest : List InstructionList) :
    (Workspace.removeDeadFrom dead index (list :: rest)).1 =
        after :: (Workspace.removeDeadFrom dead (index + 1) rest).1 ∧
      ∀ found, (Workspace.removeDeadFrom dead (index + 1) rest).2 = .ok found →
        ∃ all, (Workspace.removeDeadFrom dead index (list :: rest)).2 = .ok all := by
  rw [Workspace.removeDeadFrom]
  dsimp only
  split
  · next nothing =>
      rw [List.isEmpty_iff.mp nothing] at removed
      cases removed
      exact ⟨rfl, fun found succeeds => ⟨found, succeeds⟩⟩
  · rw [removed]
    refine ⟨rfl, fun found succeeds => ?_⟩
    exact ⟨_, by simp only [succeeds]; rfl⟩

theorem removeDeadFrom_eq_ok (dead : DeadCode) (index : Nat) {lists : List InstructionList}
    (inside : ∀ (i : Nat) (list : InstructionList), lists[i]? = some list →
      ∀ id ∈ dead.toRemove (index + i) list, id < list.nodes.length) :
    (∃ found, (Workspace.removeDeadFrom dead index lists).2 = .ok found) ∧
      (Workspace.removeDeadFrom dead index lists).1.length = lists.length ∧
      ∀ (i : Nat) (list : InstructionList), lists[i]? = some list → ∃ after,
        (Workspace.removeDeadFrom dead index lists).1[i]? = some after ∧
          list.removeAll (dead.toRemove (index + i) list) = .ok after := by
  induction lists generalizing index with
  | nil => exact ⟨⟨[], rfl⟩, rfl, by simp⟩
  | cons first rest ih =>
      have shift : ∀ i, index + 1 + i = index + (i + 1) := by omega
      obtain ⟨⟨found, succeeds⟩, length, each⟩ := ih (index + 1) (by
        intro i list there
        rw [shift]
        exact inside (i + 1) list there)
      obtain ⟨after, removed, _⟩ := InstructionList.removeAll_eq_ok (inside 0 first rfl)
      obtain ⟨lists, result⟩ := removeDeadFrom_cons dead index removed rest
      refine ⟨result found succeeds, by rw [lists, List.length_cons, length, List.length_cons], ?_⟩
      intro i list there
      rw [lists]
      cases i with
      | zero =>
          cases there
          exact ⟨after, rfl, removed⟩
      | succ i =>
          obtain ⟨after, here, removed⟩ := each i list there
          exact ⟨after, here, shift i ▸ removed⟩

theorem inside_of_mem_toRemove (orderly : ∀ list ∈ lists, list.Orderly) {i : Nat}
    {list : InstructionList} (found : lists[i]? = some list) {id : Nat}
    (member : id ∈ (DeadCode.find lists readout).toRemove i list) : id < list.nodes.length := by
  have own := orderly list (List.mem_of_getElem? found)
  refine own.inside id ?_
  unfold DeadCode.toRemove at member
  split at member
  · exact member
  · simp only [DeadCode.find, analyse, List.getElem?_map, found, Option.map_some,
      Option.getD_some] at member
    rw [← InstructionList.map_id_running own.numbered own.inside]
    exact deadIds_subset _ member

/-- A removal succeeds, and in the lists along a path the survivors are left. -/
theorem removeDead_spec (orderly : ∀ list ∈ lists, list.Orderly) (readout : List String) :
    (∃ found, ((Workspace.ofLists lists readout).removeDead).2 = .ok found) ∧
      ((Workspace.ofLists lists readout).removeDead).1.lists.length = lists.length ∧
      ∀ {path : List Nat}, Follows lists path → path.head? = some 0 → ∀ i ∈ path,
        ∀ list, lists[i]? = some list → ∃ after,
          ((Workspace.ofLists lists readout).removeDead).1.lists[i]? = some after ∧
            after.running.map Instruction.withoutLinks =
              (survivors readout (behind readout (fixpoint readout lists) list) list.running).map
                Instruction.withoutLinks := by
  have inside : ∀ (i : Nat) (list : InstructionList), lists[i]? = some list →
      ∀ id ∈ (DeadCode.find lists readout).toRemove (0 + i) list, id < list.nodes.length := by
    intro i list found id member
    rw [Nat.zero_add] at member
    exact inside_of_mem_toRemove orderly found member
  obtain ⟨⟨found, succeeds⟩, length, each⟩ := removeDeadFrom_eq_ok _ 0 inside
  refine ⟨⟨_, by simp only [Workspace.removeDead, Workspace.ofLists, succeeds]; rfl⟩, length, ?_⟩
  intro path follows begins i member list there
  obtain ⟨after, here, removed⟩ := each i list there
  obtain ⟨after', removed', same⟩ := InstructionList.removeAll_eq_ok (inside i list there)
  cases removed.symm.trans removed'
  refine ⟨after, here, ?_⟩
  have own := orderly list (List.mem_of_getElem? there)
  have distinct : (list.running.map Instruction.id).Nodup := by
    rw [InstructionList.map_id_running own.numbered own.inside]
    exact own.order
  have ids : (DeadCode.find lists readout).toRemove (0 + i) list =
      deadIds (judge readout (behind readout (fixpoint readout lists) list) list.running).2 := by
    have reachable : ¬ (DeadCode.find lists readout).blocks.contains i = true := by
      rw [List.contains_iff_mem]
      exact not_unreachable follows begins member
    rw [Nat.zero_add, DeadCode.toRemove, if_neg reachable]
    simp [DeadCode.find, analyse, there]
  rw [← same.running, InstructionList.running_filter own, ids, filter_deadIds distinct]

end Liveness

end TwoLane
