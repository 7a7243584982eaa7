import TwoLane.Proofs.Chain.Threads
import TwoLane.Proofs.Execution.Folding

/-! # Editing lists

Whatever is done to a list, in whatever order and to whichever numbers, its chains stay simple paths: the running
instructions that still touch a resource and were not taken off their chains are linked one after the other by
increasing number, and no other occurrence is linked.
-/

namespace TwoLane

namespace InstructionList

open Nearest

variable {list after : InstructionList} {apart : List Nat} {resource : Resource} {id : Nat} {node : Instruction}

/-! ## Chains as paths -/

/-- The instructions on the chain of a resource by increasing number, where some are set apart. -/
def chain (list : InstructionList) (apart : List Nat) (resource : Resource) : List Nat :=
  (List.range list.nodes.length).filter (list.isOn apart resource)

/-- The neighbours of a position on a path. -/
def pathLinks (path : List Nat) (position : Nat) : Links :=
  ⟨(path.take position).getLast?.toList, path[position + 1]?.toList⟩

/-- On the path of all numbers with a property the neighbours of a number are the nearest ones. -/
theorem around_eq_pathLinks {on : Nat → Bool} {bound position : Nat}
    (here : ((List.range bound).filter on)[position]? = some id) :
    around on bound id = pathLinks ((List.range bound).filter on) position := by
  obtain ⟨member, holds⟩ := List.mem_filter.mp (List.mem_of_getElem? here)
  have inside : id < bound := List.mem_range.mp member
  have range : List.range bound = List.range id ++ id :: List.range' (id + 1) (bound - id - 1) := by
    have behind : id :: List.range' (id + 1) (bound - id - 1) = List.range' id (bound - id) := by
      rw [← List.range'_succ]
      congr 1
      omega
    have parts := List.range'_append_1 (s := 0) (m := id) (n := bound - id)
    rw [Nat.zero_add, Nat.add_sub_cancel' (Nat.le_of_lt inside)] at parts
    rw [behind, List.range_eq_range', List.range_eq_range', parts]
  have split : (List.range bound).filter on =
      (List.range id).filter on ++ id :: (List.range' (id + 1) (bound - id - 1)).filter on := by
    rw [range, List.filter_append, List.filter_cons_of_pos holds]
  have distinct : ((List.range bound).filter on).Nodup := List.nodup_range.filter _
  have there : ((List.range bound).filter on)[((List.range id).filter on).length]? = some id := by
    rw [split]
    simp
  have position : position = ((List.range id).filter on).length :=
    (List.getElem?_inj (List.getElem?_eq_some_iff.mp here).1 distinct).mp (here.trans there.symm)
  subst position
  rw [around, pathLinks]
  congr 1
  · rw [below?, split]
    simp
  · have before : (List.range id).filter (fun i => decide (id < i) && on i) = [] := by
      refine List.filter_eq_nil_iff.mpr (fun i member => ?_)
      simp [Nat.le_of_lt (List.mem_range.mp member)]
    have behind : (List.range' (id + 1) (bound - id - 1)).filter (fun i => decide (id < i) && on i) =
        (List.range' (id + 1) (bound - id - 1)).filter on := by
      refine List.filter_congr (fun i member => ?_)
      simp [Nat.lt_of_succ_le (List.mem_range'_1.mp member).1]
    have next : above? on bound id = ((List.range' (id + 1) (bound - id - 1)).filter on).head? := by
      rw [above?, ← List.head?_filter, range, List.filter_append, before,
        List.filter_cons_of_neg (by simp), List.nil_append, behind]
    rw [next, split, List.getElem?_append_right (Nat.le_succ _), Nat.succ_sub (Nat.le_refl _)]
    simp [List.head?_eq_getElem?]

theorem Threaded.paths (threaded : list.Threaded apart) (resource : Resource) :
    (∀ id, id ∈ list.chain apart resource ↔
        id ∈ list.order ∧ list.holdsAt resource id = true ∧ id ∉ apart) ∧
      (list.chain apart resource).Pairwise (· < ·) ∧
      (∀ position id, (list.chain apart resource)[position]? = some id →
        list.linksAt resource id = some (pathLinks (list.chain apart resource) position)) ∧
      ∀ id links, id ∉ list.chain apart resource → list.linksAt resource id = some links → links = .none := by
  have members : ∀ id, id ∈ list.chain apart resource ↔ list.isOn apart resource id = true := by
    intro id
    rw [chain, List.mem_filter, List.mem_range]
    exact ⟨And.right, fun holds => ⟨threaded.links.inside holds, holds⟩⟩
  refine ⟨?_, List.pairwise_lt_range.filter _, ?_, ?_⟩
  · intro id
    rw [members, isOn, isHolder, contains]
    simp [and_assoc]
  · intro position id here
    have holds := (members id).mp (List.mem_of_getElem? here)
    obtain ⟨links, found⟩ := Option.isSome_iff_exists.mp (threaded.links.held resource id holds)
    rw [found, threaded.links.linked resource id holds links found]
    exact congrArg some (around_eq_pathLinks here)
  · intro id links off found
    refine threaded.links.loose resource id ?_ links found
    simpa using fun holds => off ((members id).mpr holds)

/-- A link along a chain is one of a running instruction. -/
theorem isLinked_of_isOn {side : Links → List Nat} {source target : Nat} {links : Links}
    (holds : list.isOn apart resource source = true) (found : list.linksAt resource source = some links)
    (member : target ∈ side links) : list.isLinked side resource source target = true := by
  have running : list.contains source = true := by
    rw [isOn, isHolder] at holds
    simp only [Bool.and_eq_true] at holds
    exact holds.1.1
  have there : (list.get? source).bind (fun node => node.links? resource) = some links := found
  rw [isLinked, running, there]
  simpa using member

theorem Threaded.checkLinks (threaded : list.Threaded apart) : list.checkLinks = .ok () := by
  have answered : ∀ node ∈ list.running, ∀ resource, list.asymmetry? node resource = none := by
    intro node running resource
    obtain ⟨id, _, found⟩ := List.mem_filterMap.mp running
    have number := threaded.numbered found
    rw [ asymmetry?]
    cases linked : node.links? resource with
    | none => rfl
    | some links =>
        have own : list.linksAt resource id = some links := by
          rw [linksAt, show list.nodes[id]? = some node from found]
          exact linked
        cases on : list.isOn apart resource id with
        | false =>
            rw [threaded.links.loose resource id on links own]
            rfl
        | true =>
            rw [number, threaded.links.linked resource id on links own]
            have next : ∀ n ∈ (above? (list.isOn apart resource) list.nodes.length id).toList,
                list.isLinked Links.previous resource n id = true := by
              intro n member
              have above := Option.mem_toList.mp member
              have holds := (above?_eq_some.mp above).2.2.1
              obtain ⟨back, there⟩ := Option.isSome_iff_exists.mp (threaded.links.held resource n holds)
              refine isLinked_of_isOn holds there ?_
              rw [threaded.links.linked resource n holds back there]
              exact Option.mem_toList.mpr (below?_of_above? on above)
            have previous : ∀ p ∈ (below? (list.isOn apart resource) id).toList,
                list.isLinked Links.next resource p id = true := by
              intro p member
              have below := Option.mem_toList.mp member
              have holds := (below?_eq_some.mp below).2.1
              obtain ⟨back, there⟩ := Option.isSome_iff_exists.mp (threaded.links.held resource p holds)
              refine isLinked_of_isOn holds there ?_
              rw [threaded.links.linked resource p holds back there]
              exact Option.mem_toList.mpr (above?_of_below? (threaded.links.inside on) on below)
            rw [Option.map_eq_none_iff, Option.or_eq_none_iff, List.find?_eq_none, List.find?_eq_none]
            exact ⟨fun n member => by simpa using next n member, fun p member => by simpa using previous p member⟩
  have none : list.running.findSome? (fun node => node.resources.findSome? (list.asymmetry? node)) = none := by
    rw [List.findSome?_eq_none_iff]
    intro node running
    rw [List.findSome?_eq_none_iff]
    exact fun resource _ => answered node running resource
  rw [InstructionList.checkLinks, none]

/-! ## Folding -/

theorem Threaded.detachAll (threaded : list.Threaded apart) (id : Nat) (names : List String) :
    (Folding.detachAll list id names).Threaded apart := by
  induction names generalizing list with
  | nil => exact threaded
  | cons name rest ih => exact ih (threaded.dropped id (.memory name))

theorem Threaded.modify (threaded : list.Threaded apart) (id : Nat) {change : Instruction → Instruction}
    (kept : ∀ node, list.nodes[id]? = some node → (change node).shape = node.shape) :
    (list.modify id change).Threaded apart :=
  threaded.sameShape (sameShape_modify list id kept)

theorem Threaded.foldClassical (threaded : list.Threaded apart) (node : Instruction) :
    (Folding.foldClassical list node).1.Threaded apart := by
  rcases Execution.foldClassical_cases list node with same | ⟨written, same⟩ | ⟨_, _, written, _, _, _, _, _, same⟩
  · rwa [same]
  · rw [same]
    exact threaded.modify node.id (fun other _ => Execution.shape_noteWritten written other)
  · rw [same]
    refine Threaded.detachAll (Threaded.modify (threaded.modify node.id ?_) node.id ?_) node.id _
    · exact fun other _ => Execution.shape_noteWritten written other
    · exact fun _ _ => rfl

theorem Threaded.foldGate (threaded : list.Threaded apart) (node : Instruction) (name : String)
    (params : List Operand) (qubits : List String) :
    (Folding.foldGate list node name params qubits).1.Threaded apart := by
  unfold Folding.foldGate
  dsimp only
  split
  · refine Threaded.modify (Threaded.detachAll (threaded.modify node.id ?_) node.id _) node.id ?_
    · exact fun _ _ => rfl
    · exact fun other _ => (Execution.settled_spec other).1
  · exact threaded

theorem Threaded.foldMeasurement (threaded : list.Threaded apart) (isEntry : Bool) (node : Instruction)
    (qubit target : String) : (Folding.foldMeasurement list isEntry node qubit target).1.Threaded apart := by
  unfold Folding.foldMeasurement
  dsimp only
  split
  · exact threaded
  · refine (threaded.modify node.id ?_).dropped node.id (.qubit qubit)
    exact fun other _ => Execution.shape_moved other target _

/-- Folding keeps chains exact, also by a rule of another category. -/
theorem Threaded.foldNode (threaded : list.Threaded apart) (rule : FoldRule) (isEntry : Bool)
    (found : list.nodes[id]? = some node) : (Folding.foldNode rule list isEntry node).1.Threaded apart := by
  cases rule with
  | classical => exact threaded.foldClassical node
  | quantum =>
      rw [Folding.foldNode, Folding.foldQuantum, threaded.numbered found]
      refine threaded.modify id (fun other there => ?_)
      cases there.symm.trans found
      simp [Instruction.shape, Folding.followQubit, Function.comp_def]
  | hybrid =>
      rw [Folding.foldNode, Folding.foldHybrid]
      split
      · exact threaded.foldGate node _ _ _
      · exact threaded.foldMeasurement isEntry node _ _
      · exact threaded
  | keep => exact threaded

theorem exists_of_foldAt {rule : FoldRule} {isEntry : Bool} {result : InstructionList × Bool}
    (folded : Folding.foldAt rule list id isEntry = .ok result) :
    ∃ node, list.nodes[id]? = some node ∧ rule.accepts node.category = true ∧
      result = Folding.foldNode rule list isEntry node := by
  obtain ⟨node, isNode, rest⟩ := Result.of_bind_eq_ok folded
  split at rest
  · next accepted =>
    cases rest
    cases found : list.nodes[id]? with
    | none =>
        simp only [InstructionList.get, get?, found] at isNode
        cases isNode
    | some there =>
        simp only [InstructionList.get, get?, found] at isNode
        cases isNode
        exact ⟨node, rfl, accepted, rfl⟩
  · cases rest

theorem Threaded.foldAt {rule : FoldRule} {isEntry : Bool} {result : InstructionList × Bool}
    (threaded : list.Threaded apart) (folded : Folding.foldAt rule list id isEntry = .ok result) :
    result.1.Threaded apart := by
  obtain ⟨node, found, _, rfl⟩ := exists_of_foldAt folded
  exact threaded.foldNode rule isEntry found

theorem Threaded.foldList (threaded : list.Threaded apart) (index : Nat) :
    (Folding.foldList index list).1.Threaded apart := by
  rw [Folding.foldList, Execution.foldAll_fst]
  generalize list.order = ids
  induction ids generalizing list with
  | nil => exact threaded
  | cons id rest ih =>
      refine ih ?_
      unfold Execution.foldStep
      split
      · next found => exact threaded.foldNode _ _ found
      · exact threaded

theorem Threaded.propagateList (threaded : list.Threaded apart) (index : Nat) :
    (Constants.propagateList index list).1.Threaded apart := by
  rw [Constants.propagateList, annotateAll_fst]
  exact threaded.sameShape (sameButFacts_foldl _ list list.order).sameShape

theorem Threaded.removeControl (threaded : list.Threaded apart) :
    ∃ result, list.removeControl = .ok result ∧ result.1.Threaded apart := by
  obtain ⟨after, removed, counted⟩ := removeControl_eq_ok threaded.numbered
  exact ⟨_, counted, threaded.removeAll removed⟩

end InstructionList

/-! ## Sequences of edits -/

/-- A change that can be asked for. -/
inductive Edit where
  | remove (id : Nat)
  | spliceOut (id : Nat)
  | detach (id : Nat) (resource : Resource)
  | reorder (order : List Nat)
  | foldAt (rule : FoldRule) (id : Nat) (isEntry : Bool)
  | foldList (index : Nat)
  | propagateList (index : Nat)
  | removeControl

/-- A list with the numbers of the instructions that were taken off all of their chains. -/
structure EditedList where
  list : InstructionList
  apart : List Nat

namespace EditedList

open InstructionList

/-- Make a change. Where it fails the list stays as it is. -/
def change (edited : EditedList) : Edit → EditedList
  | .remove id => { edited with list := (edited.list.remove id).toOption.getD edited.list }
  | .spliceOut id =>
      match edited.list.spliceOut id with
      | .ok spliced => ⟨spliced, id :: edited.apart⟩
      | .error _ => edited
  | .detach id resource => { edited with list := (edited.list.detach id resource).toOption.getD edited.list }
  | .reorder order => { edited with list := (edited.list.reorder order).toOption.getD edited.list }
  | .foldAt rule id isEntry =>
      { edited with
        list := ((Folding.foldAt rule edited.list id isEntry).toOption.map Prod.fst).getD edited.list }
  | .foldList index => { edited with list := (Folding.foldList index edited.list).1 }
  | .propagateList index => { edited with list := (Constants.propagateList index edited.list).1 }
  | .removeControl => { edited with list := (edited.list.removeControl.toOption.map Prod.fst).getD edited.list }

/-- Make several changes one after the other. -/
def changeAll (edited : EditedList) (edits : List Edit) : EditedList :=
  edits.foldl change edited

/-- A new list of operations on their lines, from which nothing is set apart. -/
def ofOperations (block : Nat) (name : String) (operations : List (Nat × Category × Operation)) : EditedList :=
  ⟨.ofNodes block name (operations.map (fun o => .ofOperation o.1 o.2.1 o.2.2)), []⟩

variable {edited : EditedList}

theorem threaded_change (threaded : edited.list.Threaded edited.apart) (edit : Edit) :
    (edited.change edit).list.Threaded (edited.change edit).apart := by
  cases edit with
  | remove id =>
      rw [change]
      cases removed : edited.list.remove id with
      | ok after => exact threaded.remove removed
      | error _ => exact threaded
  | spliceOut id =>
      rw [change]
      cases spliced : edited.list.spliceOut id with
      | ok after => exact (threaded.spliceOut spliced).1
      | error _ => exact threaded
  | detach id resource =>
      rw [change]
      cases detached : edited.list.detach id resource with
      | ok after =>
          obtain ⟨_, _, rest⟩ := Result.of_bind_eq_ok detached
          cases rest
          exact threaded.dropped id resource
      | error _ => exact threaded
  | reorder order =>
      rw [change]
      cases reordered : edited.list.reorder order with
      | ok after => exact threaded.reorder reordered
      | error _ => exact threaded
  | foldAt rule id isEntry =>
      rw [change]
      cases folded : Folding.foldAt rule edited.list id isEntry with
      | ok result => exact threaded.foldAt folded
      | error _ => exact threaded
  | foldList index => exact threaded.foldList index
  | propagateList index => exact threaded.propagateList index
  | removeControl =>
      obtain ⟨result, removed, after⟩ := threaded.removeControl
      rw [change, removed]
      exact after

theorem threaded_changeAll (threaded : edited.list.Threaded edited.apart) (edits : List Edit) :
    (edited.changeAll edits).list.Threaded (edited.changeAll edits).apart := by
  induction edits generalizing edited with
  | nil => exact threaded
  | cons edit rest ih => exact ih (threaded_change threaded edit)

theorem threaded_ofOperations (block : Nat) (name : String) (operations : List (Nat × Category × Operation)) :
    (ofOperations block name operations).list.Threaded [] := by
  refine Chained.threaded (chained_ofNodes ?_) ?_
  · intro node member
    obtain ⟨o, _, rfl⟩ := List.mem_map.mp member
    exact Instruction.isNew_ofOperation _ _ _
  · intro id inside
    rw [ofOperations, length_ofNodes] at inside
    exact List.mem_range.mpr inside

/-- However a new list is edited, its order has no duplicates, its chains are simple paths of the running
    instructions that touch a resource and are not set apart, nothing else is linked, and all links are mutual. -/
theorem chains_stay_paths (block : Nat) (name : String) (operations : List (Nat × Category × Operation))
    (edits : List Edit) :
    let edited := (ofOperations block name operations).changeAll edits
    edited.list.order.Nodup ∧ edited.list.checkLinks = .ok () ∧ ∀ resource,
      (∀ id, id ∈ edited.list.chain edited.apart resource ↔
        id ∈ edited.list.order ∧ edited.list.holdsAt resource id = true ∧ id ∉ edited.apart) ∧
      (edited.list.chain edited.apart resource).Pairwise (· < ·) ∧
      (∀ position id, (edited.list.chain edited.apart resource)[position]? = some id →
        edited.list.linksAt resource id = some (pathLinks (edited.list.chain edited.apart resource) position)) ∧
      ∀ id links, id ∉ edited.list.chain edited.apart resource → edited.list.linksAt resource id = some links →
        links = .none := by
  have threaded := threaded_changeAll (threaded_ofOperations block name operations) edits
  exact ⟨threaded.order, threaded.checkLinks, threaded.paths⟩

end EditedList

end TwoLane
