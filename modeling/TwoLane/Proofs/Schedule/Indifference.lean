import TwoLane.Proofs.Liveness.Settled
import TwoLane.Proofs.Liveness.Swaps
import TwoLane.Proofs.Schedule.Settled
import TwoLane.Proofs.Schedule.Slowdown

/-! # Analyses do not depend on the schedule

Liveness looks at all that follows, but for each instruction only what touches the same memory or the same qubits
matters, and such instructions are tied. Propagation looks up what the direct predecessors have left, and a hybrid map
is made of dependencies. So no analysis can tell a list from one with the same ties.
-/

namespace TwoLane

namespace Constants

variable {list : InstructionList} {node : Instruction} {isEntry : Bool} {a b : Nat} {ids ids' order : List Nat}

/-! ## Propagation and swaps -/

theorem memoryBefore?_congr {other : InstructionList} (same : ∀ p ∈ node.previous, other.get? p = list.get? p)
    (name : String) : other.memoryBefore? node name = list.memoryBefore? node name := by
  rw [InstructionList.memoryBefore?, InstructionList.memoryBefore?]
  split
  · next previous linked =>
      obtain ⟨o, there, links⟩ := Option.map_eq_some_iff.mp linked
      have member : previous ∈ node.previous := List.mem_append_left _
        (List.mem_flatMap.mpr ⟨o, List.mem_of_find?_eq_some there, links ▸ List.mem_singleton_self previous⟩)
      rw [same previous member]
  · rfl

theorem qubitBefore?_congr {other : InstructionList} (same : ∀ p ∈ node.previous, other.get? p = list.get? p)
    (name : String) : other.qubitBefore? isEntry node name = list.qubitBefore? isEntry node name := by
  rw [InstructionList.qubitBefore?, InstructionList.qubitBefore?]
  split
  · rfl
  · next previous linked =>
      obtain ⟨o, there, links⟩ := Option.map_eq_some_iff.mp linked
      have member : previous ∈ node.previous := List.mem_append_right _
        (List.mem_flatMap.mpr ⟨o, List.mem_of_find?_eq_some there, links ▸ List.mem_singleton_self previous⟩)
      rw [same previous member]
  · rfl

/-- What is found out about an instruction depends on its predecessors only. -/
theorem annotate_congr {other : InstructionList} (same : ∀ p ∈ node.previous, other.get? p = list.get? p) :
    annotate other isEntry node = annotate list isEntry node := by
  have memory : other.memoryBefore? node = list.memoryBefore? node := funext (memoryBefore?_congr same)
  have qubits : other.qubitBefore? isEntry node = list.qubitBefore? isEntry node := funext (qubitBefore?_congr same)
  have operands : other.operandBefore? node = list.operandBefore? node := by
    funext operand
    cases operand with
    | literal value => rfl
    | address name => exact memoryBefore?_congr same name
    | expression text addresses => rfl
  have written : written other isEntry node = written list isEntry node := by
    rw [Constants.written, Constants.written, qubits, operands]
  have forMemory : annotateMemory other isEntry node = annotateMemory list isEntry node := by
    funext o
    rw [annotateMemory, annotateMemory, memoryAfter?, memoryAfter?, written, memory]
  have forQubits : annotateQubit other isEntry node = annotateQubit list isEntry node := by
    funext o
    rw [annotateQubit, annotateQubit, qubits]
  rw [annotate, annotate, forMemory, forQubits]

theorem previous_annotate : (annotate list isEntry node).previous = node.previous := by
  simp [annotate, annotateMemory, annotateQubit, Instruction.previous, List.flatMap_map]

theorem annotateAt_of_some (found : list.get? a = some node) :
    annotateAt isEntry list a = list.modify a (fun _ => annotate list isEntry node) := by
  rw [annotateAt, found]

theorem annotateAt_of_none (missing : list.get? a = none) : annotateAt isEntry list a = list := by
  rw [annotateAt, missing]

theorem get?_annotateAt_of_ne (differ : a ≠ b) : (annotateAt isEntry list a).get? b = list.get? b :=
  Indexed.getElem?_annotateAt_of_ne isEntry list differ

theorem predecessors_annotateAt : (annotateAt isEntry list a).predecessors = list.predecessors := by
  funext id
  by_cases here : a = id
  · subst here
    cases found : list.get? a with
    | none => rw [annotateAt_of_none found]
    | some node =>
        have there := InstructionList.getElem?_annotateAt isEntry found a
        rw [if_pos rfl] at there
        simp only [InstructionList.predecessors, found, show (annotateAt isEntry list a).get? a = _ from there,
          previous_annotate]
  · rw [InstructionList.predecessors, InstructionList.predecessors, get?_annotateAt_of_ne here]

/-- An instruction is visited alike before and behind one that is no predecessor of it. -/
theorem annotate_annotateAt (found : list.get? b = some node) (apart : a ∉ list.predecessors b) :
    annotate (annotateAt isEntry list a) isEntry node = annotate list isEntry node := by
  refine annotate_congr (fun p member => get?_annotateAt_of_ne ?_)
  rintro rfl
  exact apart (InstructionList.mem_predecessors.mpr ⟨node, found, member⟩)

/-- Two instructions may be visited in either order if neither is a predecessor of the other. -/
theorem annotateAt_comm (differ : a ≠ b) (first : a ∉ list.predecessors b) (second : b ∉ list.predecessors a) :
    annotateAt isEntry (annotateAt isEntry list a) b = annotateAt isEntry (annotateAt isEntry list b) a := by
  cases found : list.get? a with
  | none => rw [annotateAt_of_none found, annotateAt_of_none ((get?_annotateAt_of_ne differ.symm).trans found)]
  | some x =>
      cases found' : list.get? b with
      | none => rw [annotateAt_of_none found', annotateAt_of_none ((get?_annotateAt_of_ne differ).trans found')]
      | some y =>
          rw [annotateAt_of_some ((get?_annotateAt_of_ne differ).trans found'), annotate_annotateAt found' first,
            annotateAt_of_some ((get?_annotateAt_of_ne differ.symm).trans found), annotate_annotateAt found second,
            annotateAt_of_some found, annotateAt_of_some found']
          simp only [InstructionList.modify]
          rw [List.modify_modify_ne _ _ _ differ]

/-- Whether two instructions are different ones and neither is a predecessor of the other. -/
def Strangers (list : InstructionList) (a b : Nat) : Prop :=
  a ≠ b ∧ a ∉ list.predecessors b ∧ b ∉ list.predecessors a

theorem foldl_annotateAt_swaps (swaps : Swaps (Strangers list) ids ids') :
    ids.foldl (annotateAt isEntry) list = ids'.foldl (annotateAt isEntry) list := by
  have all : ∀ other : InstructionList, other.predecessors = list.predecessors →
      ids.foldl (annotateAt isEntry) other = ids'.foldl (annotateAt isEntry) other := by
    induction swaps with
    | nil => exact fun _ _ => rfl
    | cons id _ ih => exact fun other same => ih _ (predecessors_annotateAt.trans same)
    | @swap a b rest strangers =>
        intro other same
        obtain ⟨differ, first, second⟩ := strangers
        rw [← same] at first second
        rw [List.foldl_cons, List.foldl_cons, annotateAt_comm differ first second]
        rfl
    | trans _ _ ih ih' => exact fun other same => (ih other same).trans (ih' other same)
  exact all list rfl

theorem annotateAt_inOrder : annotateAt isEntry (list.inOrder order) a = (annotateAt isEntry list a).inOrder order := by
  cases found : list.get? a with
  | none => rw [annotateAt_of_none found, annotateAt_of_none (show (list.inOrder order).get? a = none from found)]
  | some node =>
      rw [annotateAt_of_some found, annotateAt_of_some (show (list.inOrder order).get? a = some node from found)]
      rfl

theorem foldl_annotateAt_inOrder : ids.foldl (annotateAt isEntry) (list.inOrder order) =
    (ids.foldl (annotateAt isEntry) list).inOrder order := by
  induction ids generalizing list with
  | nil => rfl
  | cons id rest ih => rw [List.foldl_cons, List.foldl_cons, annotateAt_inOrder, ih]

theorem propagateList_swaps (index : Nat) (swaps : Swaps (Strangers list) list.order order) :
    (propagateList index (list.inOrder order)).1 = (propagateList index list).1.inOrder order := by
  rw [propagateList, propagateList, InstructionList.annotateAll_fst, InstructionList.annotateAll_fst,
    foldl_annotateAt_inOrder, foldl_annotateAt_swaps swaps]
  rfl

end Constants

open InstructionList (Rearranges LinesDiffer inOrder)
open Indexed (Part)

variable {parts : List Part} {part : Part} {after : InstructionList} {afters : List InstructionList}

/-! ## New lists -/

theorem ordered_new (new : ∀ node ∈ part.nodes, node.IsNew) : Execution.Ordered part.list :=
  (Execution.ordered_ofNodes new).withSuccessors _

/-- Whether a list is a new one in an order that is reached by swaps of instructions that are not tied. -/
structure Reordered (part : Part) (after : InstructionList) : Prop where
  swapped : Liveness.Swapped part.list after
  same : ∃ order, after = part.list.inOrder order ∧ Swaps (Constants.Strangers part.list) part.list.order order

theorem reordered_of_rearranges (new : ∀ node ∈ part.nodes, node.IsNew) (rearranges : Rearranges part.list after) :
    Reordered part after := by
  have ordered := ordered_new new
  have complete : InstructionList.Complete (InstructionList.memoryNames part.nodes)
    (InstructionList.ofNodes part.block part.title part.nodes) := InstructionList.complete_ofNodes new
  have running := rearranges.running ordered complete
  obtain ⟨order, rfl, swaps⟩ := rearranges.swaps ordered.chained.order
  refine ⟨⟨rfl, rfl, swaps.perm, running, rfl⟩, order, rfl, swaps.imp (fun a b loose => ?_)⟩
  have direct := fun id => (InstructionList.dependencies_closed part.list id).1
  exact ⟨loose.differ, fun needed => loose.untied (.inl (direct b needed)),
    fun needed => loose.untied (.inr (.inl (direct a needed)))⟩

theorem Reordered.propagateList_eq (reordered : Reordered part after) (index : Nat) :
    (Constants.propagateList index after).1.nodes = (Constants.propagateList index part.list).1.nodes := by
  obtain ⟨order, rfl, swaps⟩ := reordered.same
  rw [Constants.propagateList_swaps index swaps]
  rfl

theorem Reordered.ofList_eq (reordered : Reordered part after) (new : ∀ node ∈ part.nodes, node.IsNew)
    (lines : (part.nodes.map Instruction.line).Nodup) : HybridMap.ofList after = HybridMap.ofList part.list := by
  have valid : Schedule.Valid part.list := Schedule.valid_of_ordered (ordered_new new)
  have differ : LinesDiffer (InstructionList.ofNodes part.block part.title part.nodes) :=
    Schedule.linesDiffer_ofNodes lines
  obtain ⟨order, rfl, swaps⟩ := reordered.same
  exact HybridMap.ofList_inOrder valid differ swaps.perm

theorem propagate_reordered (reordered : List.Forall₂ Reordered parts afters) :
    (Constants.propagate afters).1.map InstructionList.nodes =
      (Constants.propagate (parts.map Part.list)).1.map InstructionList.nodes := by
  refine List.ext_getElem? (fun i => ?_)
  have here := Liveness.rel_getElem? reordered i
  simp only [Constants.propagate, List.getElem?_map, List.getElem?_zipIdx]
  generalize parts[i]? = found, afters[i]? = found' at here ⊢
  cases here with
  | none => rfl
  | some here => exact congrArg some (here.propagateList_eq _)

/-- No analysis of new lists depends on the order in which they run, as long as instructions of which one depends on the
    other, and bare resets, run in the same order. The same instructions and occurrences are dead, a removal of dead
    code reports and leaves the same, each occurrence has the same values and states, and the hybrid maps are the same. -/
theorem analyses_ignore_order (new : ∀ part ∈ parts, ∀ node ∈ part.nodes, node.IsNew)
    (lines : ∀ part ∈ parts, (part.nodes.map Instruction.line).Nodup)
    (rearranged : List.Forall₂ Rearranges (parts.map Part.list) afters) (names : List String) :
    List.Forall₂ List.Perm (Liveness.analyse (parts.map Part.list) (Sorted.ofList names))
        (Liveness.analyse afters (Sorted.ofList names)) ∧
      ((∃ found, (Workspace.ofLists (parts.map Part.list) (Sorted.ofList names)).removeDead.2 = .ok found ∧
          (Workspace.ofLists afters (Sorted.ofList names)).removeDead.2 = .ok found) ∧
        List.Forall₂ (fun list after => list.order.Perm after.order)
          (Workspace.ofLists (parts.map Part.list) (Sorted.ofList names)).removeDead.1.lists
          (Workspace.ofLists afters (Sorted.ofList names)).removeDead.1.lists) ∧
      (Constants.propagate afters).1.map InstructionList.nodes =
        (Constants.propagate (parts.map Part.list)).1.map InstructionList.nodes ∧
      afters.map HybridMap.ofList = (parts.map Part.list).map HybridMap.ofList := by
  have facts : ∀ part ∈ parts, (∀ node ∈ part.nodes, node.IsNew) ∧ (part.nodes.map Instruction.line).Nodup :=
    fun part there => ⟨new part there, lines part there⟩
  have together := (List.forall₂_and_left _ _).mpr ⟨facts, List.forall₂_map_left_iff.mp rearranged⟩
  have reordered : List.Forall₂ Reordered parts afters :=
    together.imp (fun part after here => reordered_of_rearranges here.1.1 here.2)
  have swapped : List.Forall₂ Liveness.Swapped (parts.map Part.list) afters :=
    List.forall₂_map_left_iff.mpr (reordered.imp (fun part after here => here.swapped))
  have sorted : Sorted.Increasing (Sorted.ofList names) := Sorted.increasing_ofList names
  have orderly : ∀ list ∈ parts.map Part.list, list.Orderly := by
    intro list member
    obtain ⟨part, there, rfl⟩ := List.mem_map.mp member
    exact (ordered_new (new part there)).chained.orderly
  refine ⟨Liveness.analyse_swaps swapped sorted, Liveness.removeDead_swaps swapped orderly sorted,
    propagate_reordered reordered, ?_⟩
  have maps : List.Forall₂ (fun part after => HybridMap.ofList after = HybridMap.ofList part.list) parts afters :=
    together.imp (fun part after here =>
      (reordered_of_rearranges here.1.1 here.2).ofList_eq here.1.1 here.1.2)
  rw [List.map_map, ← List.forall₂_eq_eq_eq, List.forall₂_map_left_iff, List.forall₂_map_right_iff]
  exact maps.flip

/-- The lists of a loop, with a store and a constant the other way round. -/
def turned : List InstructionList :=
  Indexed.looped.map (fun part => part.list.inOrder [1, 0, 2, 3])

theorem rearranges_turned : List.Forall₂ Rearranges (Indexed.looped.map Part.list) turned := by
  have order : ∀ a ∈ [0, 1, 2, 3], ∀ b ∈ [0, 1, 2, 3], ∀ part ∈ Indexed.looped, part.list.Tied a b →
      [a, b].Sublist [0, 1, 2, 3] → [a, b].Sublist [1, 0, 2, 3] := by
    decide +kernel
  refine .cons ⟨[1, 0, 2, 3], Execution.reorder_eq_ok (.swap 1 0 [2, 3]), fun a b tied sublist => ?_⟩ .nil
  exact order a (sublist.subset List.mem_cons_self) b (sublist.subset (by simp)) _ List.mem_cons_self tied sublist

theorem turned_analyses_ignore_order :
    List.Forall₂ List.Perm (Liveness.analyse (Indexed.looped.map Part.list) (Sorted.ofList ["t"]))
        (Liveness.analyse turned (Sorted.ofList ["t"])) ∧
      ((∃ found, (Workspace.ofLists (Indexed.looped.map Part.list) (Sorted.ofList ["t"])).removeDead.2 = .ok found ∧
          (Workspace.ofLists turned (Sorted.ofList ["t"])).removeDead.2 = .ok found) ∧
        List.Forall₂ (fun list after => list.order.Perm after.order)
          (Workspace.ofLists (Indexed.looped.map Part.list) (Sorted.ofList ["t"])).removeDead.1.lists
          (Workspace.ofLists turned (Sorted.ofList ["t"])).removeDead.1.lists) ∧
      (Constants.propagate turned).1.map InstructionList.nodes =
        (Constants.propagate (Indexed.looped.map Part.list)).1.map InstructionList.nodes ∧
      turned.map HybridMap.ofList = (Indexed.looped.map Part.list).map HybridMap.ofList :=
  analyses_ignore_order (fun part member => Indexed.isNew_of_isNewStep (Indexed.isNewStep_looped part member))
    (by decide) rearranges_turned ["t"]

end TwoLane
