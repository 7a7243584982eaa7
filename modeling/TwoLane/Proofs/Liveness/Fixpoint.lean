import Mathlib.Algebra.GroupWithZero.Nat
import Mathlib.Algebra.Order.BigOperators.Group.List
import TwoLane.Proofs.Liveness.Order

/-! # The fixpoint of liveness

Rounds only add names, and there are finitely many of them, so some round within the bound changes nothing. Then
what is live in front of each list follows from what is live in front of its successors.
-/

namespace TwoLane.Liveness

def at? (front : List LiveSet) (i : Nat) : LiveSet :=
  (front[i]?).getD .empty

/-- What is live in front of a list by the first account is live by the second one. -/
def FrontWithin (a b : List LiveSet) : Prop :=
  ∀ i, (at? a i).Within (at? b i)

theorem FrontWithin.trans {a b c : List LiveSet} (hab : FrontWithin a b) (hbc : FrontWithin b c) :
    FrontWithin a c :=
  fun i => (hab i).trans (hbc i)

variable {readout : List String} {lists : List InstructionList} {front later : List LiveSet}

/-! ## Behind a list -/

theorem foldl_union_mono {a b : LiveSet} (base : a.Within b) (within : FrontWithin front later)
    (successors : List Nat) :
    (successors.foldl (fun acc s => acc.union ((front[s]?).getD .empty)) a).Within
      (successors.foldl (fun acc s => acc.union ((later[s]?).getD .empty)) b) := by
  induction successors generalizing a b with
  | nil => exact base
  | cons s rest ih => exact ih (LiveSet.union_mono base (within s))

theorem behind_mono (within : FrontWithin front later) (list : InstructionList) :
    (behind readout front list).Within (behind readout later list) :=
  foldl_union_mono (.refl _) within list.successors

theorem foldl_union_base (front : List LiveSet) (base : LiveSet) (successors : List Nat) :
    base.Within (successors.foldl (fun acc s => acc.union ((front[s]?).getD .empty)) base) := by
  induction successors generalizing base with
  | nil => exact .refl _
  | cons s rest ih => exact (LiveSet.within_union_left _ _).trans (ih _)

theorem readout_within_behind (front : List LiveSet) (list : InstructionList) :
    LiveSet.Within ⟨readout, []⟩ (behind readout front list) :=
  foldl_union_base front _ list.successors

theorem successor_within_behind {list : InstructionList} {s : Nat} (member : s ∈ list.successors) :
    (at? front s).Within (behind readout front list) := by
  unfold behind
  generalize (⟨readout, []⟩ : LiveSet) = base
  generalize list.successors = successors at member
  induction successors generalizing base with
  | nil => cases member
  | cons first rest ih =>
      rcases List.mem_cons.mp member with rfl | further
      · exact (LiveSet.within_union_right _ _).trans (foldl_union_base front _ rest)
      · exact ih _ further

theorem increasing_behind (sorted : Sorted.Increasing readout) (front : List LiveSet)
    (list : InstructionList) : (behind readout front list).Increasing := by
  have kept : ∀ (base : LiveSet) (successors : List Nat), base.Increasing →
      (successors.foldl (fun acc s => acc.union ((front[s]?).getD .empty)) base).Increasing := by
    intro base successors increasing
    induction successors generalizing base with
    | nil => exact increasing
    | cons s rest ih => exact ih _ increasing.union
  exact kept _ _ ⟨sorted, Sorted.increasing_nil⟩

theorem inFront_mono (readout : List String) {list : InstructionList}
    (assigns : ∀ node ∈ list.running, Assigns node)
    (within : FrontWithin front later) :
    (inFront readout front list).Within (inFront readout later list) :=
  foldr_before_mono assigns (behind_mono within list)

theorem increasing_inFront (sorted : Sorted.Increasing readout) (front : List LiveSet)
    (list : InstructionList) : (inFront readout front list).Increasing :=
  increasing_foldr_before (increasing_behind sorted front list)

/-! ## One visit -/

/-- What is kept while lists are visited: a visit to any list would only add names. -/
structure Growing (readout : List String) (lists : List InstructionList) (front : List LiveSet) :
    Prop where
  length : front.length = lists.length
  increasing : ∀ i, (at? front i).Increasing
  grows : ∀ i list, lists[i]? = some list → (at? front i).Within (inFront readout front list)

/-- Whether all instructions of all lists have occurrences for what they write. -/
def AllAssign (lists : List InstructionList) : Prop :=
  ∀ list ∈ lists, ∀ node ∈ list.running, Assigns node

theorem at?_set (front : List LiveSet) (i j : Nat) (live : LiveSet) :
    at? (front.set i live) j = if i = j ∧ i < front.length then live else at? front j := by
  unfold at?
  rw [List.getElem?_set]
  by_cases same : i = j
  · subst same
    by_cases inside : i < front.length
    · simp [inside]
    · simp [inside]
  · simp [same]

theorem Growing.visit (growing : Growing readout lists front) (assigns : AllAssign lists)
    (sorted : Sorted.Increasing readout) {i : Nat} {list : InstructionList}
    (found : lists[i]? = some list) :
    FrontWithin front (front.set i (inFront readout front list)) ∧
      Growing readout lists (front.set i (inFront readout front list)) := by
  have inside : i < front.length := by
    rw [growing.length]
    exact (List.getElem?_eq_some_iff.mp found).1
  have within : FrontWithin front (front.set i (inFront readout front list)) := by
    intro j
    rw [at?_set]
    split
    · next here =>
        obtain ⟨rfl, _⟩ := here
        exact growing.grows i list found
    · exact .refl _
  refine ⟨within, ?_, ?_, ?_⟩
  · rw [List.length_set, growing.length]
  · intro j
    rw [at?_set]
    split
    · exact increasing_inFront sorted front list
    · exact growing.increasing j
  · intro j other there
    have more := inFront_mono readout (assigns other (List.mem_of_getElem? there)) within
    rw [at?_set]
    split
    · next here =>
        obtain ⟨rfl, _⟩ := here
        cases found.symm.trans there
        exact more
    · exact (growing.grows j other there).trans more

theorem Growing.renew (growing : Growing readout lists front) (assigns : AllAssign lists)
    (sorted : Sorted.Increasing readout) (positions : List Nat) :
    FrontWithin front (renew readout lists front positions) ∧
      Growing readout lists (renew readout lists front positions) := by
  induction positions generalizing front with
  | nil => exact ⟨fun _ => .refl _, growing⟩
  | cons i rest ih =>
      unfold Liveness.renew
      cases found : lists[i]? with
      | none => exact ih growing
      | some list =>
          obtain ⟨within, next⟩ := growing.visit assigns sorted found
          obtain ⟨further, last⟩ := ih next
          exact ⟨within.trans further, last⟩

theorem eq_of_within {a b : LiveSet} (ha : a.Increasing) (hb : b.Increasing) (hab : a.Within b)
    (hba : b.Within a) : a = b := by
  obtain ⟨memory, qubits⟩ := a
  obtain ⟨memory', qubits'⟩ := b
  rw [show memory = memory' from ha.memory.eq_of_mem_iff hb.memory
      (fun _ => ⟨fun member => hab.memory member, fun member => hba.memory member⟩),
    show qubits = qubits' from ha.qubits.eq_of_mem_iff hb.qubits
      (fun _ => ⟨fun member => hab.qubits member, fun member => hba.qubits member⟩)]

/-- Where visits change nothing, what is live in front of a visited list is what its visit finds. -/
theorem Growing.stable (growing : Growing readout lists front) (assigns : AllAssign lists)
    (sorted : Sorted.Increasing readout) {positions : List Nat}
    (same : Liveness.renew readout lists front positions = front) {i : Nat} {list : InstructionList}
    (member : i ∈ positions) (found : lists[i]? = some list) :
    at? front i = inFront readout front list := by
  induction positions with
  | nil => cases member
  | cons j rest ih =>
      unfold Liveness.renew at same
      cases there : lists[j]? with
      | none =>
          rw [there] at same
          rcases List.mem_cons.mp member with rfl | further
          · cases there.symm.trans found
          · exact ih same further
      | some other =>
          rw [there] at same
          obtain ⟨_, next⟩ := growing.visit assigns sorted there
          obtain ⟨further, _⟩ := next.renew assigns sorted rest
          dsimp only at same
          rw [same] at further
          have inside : j < front.length := by
            rw [growing.length]
            exact (List.getElem?_eq_some_iff.mp there).1
          have settled : at? front j = inFront readout front other := by
            have back := further j
            rw [at?_set, if_pos ⟨rfl, inside⟩] at back
            exact eq_of_within (growing.increasing j) (increasing_inFront sorted front other)
              (growing.grows j other there) back
          have unchanged : front.set j (inFront readout front other) = front := by
            rw [← settled, at?, List.getElem?_eq_getElem inside, Option.getD_some]
            exact List.set_getElem_self inside
          rw [unchanged] at same
          rcases List.mem_cons.mp member with rfl | further
          · cases there.symm.trans found
            exact settled
          · exact ih same further

/-! ## Finitely many names -/

/-- The references that are read out or occur in running instructions. -/
def memoryUniverse (readout : List String) (lists : List InstructionList) : List String :=
  readout ++ lists.flatMap (fun list => list.running.flatMap (fun node =>
    node.memory.map MemoryOccurrence.name ++ node.operation.memoryAccesses.map MemoryAccess.name))

def qubitUniverse (lists : List InstructionList) : List String :=
  lists.flatMap (fun list => list.running.flatMap touched)

theorem universe_length (readout : List String) (lists : List InstructionList) :
    (memoryUniverse readout lists).length + (qubitUniverse lists).length =
      readout.length + (lists.flatMap (fun list => list.running.flatMap broughtIn)).length := by
  have perm : (lists.flatMap (fun list => list.running.flatMap (fun node =>
      node.memory.map MemoryOccurrence.name ++ node.operation.memoryAccesses.map MemoryAccess.name)) ++
        qubitUniverse lists).Perm (lists.flatMap (fun list => list.running.flatMap broughtIn)) :=
    (List.flatMap_append_perm lists _ _).trans
      (List.Perm.flatMap_left lists (fun list _ => List.flatMap_append_perm list.running _ touched))
  rw [memoryUniverse, List.length_append, Nat.add_assoc, ← List.length_append, perm.length_eq]

theorem before_within_names {node : Instruction} {live : LiveSet} {memory qubits : List String}
    (own : ∀ o ∈ node.memory, o.name ∈ memory) (accesses : ∀ a ∈ node.operation.memoryAccesses, a.name ∈ memory)
    (ownQubits : ∀ name ∈ touched node, name ∈ qubits) (within : live.Within ⟨memory, qubits⟩) :
    (before readout node live).Within ⟨memory, qubits⟩ := by
  unfold before
  split
  · exact within
  · refine ⟨?_, ?_⟩
    · intro name member
      rcases mem_memoryBefore.mp member with ⟨there, _⟩ | used | read
      · exact within.memory there
      · obtain ⟨a, there, rfl⟩ := List.mem_map.mp used
        exact accesses a (List.mem_filter.mp there).1
      · obtain ⟨o, there, rfl⟩ := List.mem_map.mp read
        exact own o (List.mem_filter.mp there).1
    · intro name member
      have there := mem_qubitsBefore.mp member
      split at there
      · exact within.qubits there.2.1
      · rcases there with ⟨_, live⟩ | own
        · exact within.qubits live
        · exact ownQubits name own

/-- Whether all that is live in front of lists is named in them or read out. -/
def Bounded (readout : List String) (lists : List InstructionList) (front : List LiveSet) : Prop :=
  ∀ i, (at? front i).Within ⟨memoryUniverse readout lists, qubitUniverse lists⟩

theorem Bounded.inFront (bounded : Bounded readout lists front) {list : InstructionList}
    (member : list ∈ lists) :
    (inFront readout front list).Within ⟨memoryUniverse readout lists, qubitUniverse lists⟩ := by
  have behindWithin : (behind readout front list).Within
      ⟨memoryUniverse readout lists, qubitUniverse lists⟩ := by
    have kept : ∀ (base : LiveSet) (successors : List Nat),
        base.Within ⟨memoryUniverse readout lists, qubitUniverse lists⟩ →
          (successors.foldl (fun acc s => acc.union ((front[s]?).getD .empty)) base).Within
            ⟨memoryUniverse readout lists, qubitUniverse lists⟩ := by
      intro base successors within
      induction successors generalizing base with
      | nil => exact within
      | cons s rest ih =>
          refine ih _ ⟨?_, ?_⟩
          · intro name there
            exact (Sorted.mem_union.mp there).elim (@within.memory name) (@(bounded s).memory name)
          · intro name there
            exact (Sorted.mem_union.mp there).elim (@within.qubits name) (@(bounded s).qubits name)
    exact kept _ _ ⟨List.subset_append_left _ _, List.nil_subset _⟩
  unfold Liveness.inFront
  have all : ∀ nodes : List Instruction, nodes ⊆ list.running →
      (nodes.foldr (before readout) (behind readout front list)).Within
        ⟨memoryUniverse readout lists, qubitUniverse lists⟩ := by
    intro nodes subset
    induction nodes with
    | nil => exact behindWithin
    | cons node rest ih =>
        have nodeIn : node ∈ list.running := subset List.mem_cons_self
        refine before_within_names ?_ ?_ ?_ (ih (fun _ there => subset (List.mem_cons_of_mem _ there)))
        · intro o there
          refine List.mem_append_right _ (List.mem_flatMap.mpr ⟨list, member, ?_⟩)
          exact List.mem_flatMap.mpr
            ⟨node, nodeIn, List.mem_append_left _ (List.mem_map_of_mem there)⟩
        · intro a there
          refine List.mem_append_right _ (List.mem_flatMap.mpr ⟨list, member, ?_⟩)
          exact List.mem_flatMap.mpr
            ⟨node, nodeIn, List.mem_append_right _ (List.mem_map_of_mem there)⟩
        · intro name there
          exact List.mem_flatMap.mpr ⟨list, member, List.mem_flatMap.mpr ⟨node, nodeIn, there⟩⟩
  exact all _ (List.Subset.refl _)

theorem Bounded.renew (bounded : Bounded readout lists front) (positions : List Nat) :
    Bounded readout lists (renew readout lists front positions) := by
  induction positions generalizing front with
  | nil => exact bounded
  | cons i rest ih =>
      unfold Liveness.renew
      cases found : lists[i]? with
      | none => exact ih bounded
      | some list =>
          refine ih ?_
          intro j
          rw [at?_set]
          split
          · exact bounded.inFront (List.mem_of_getElem? found)
          · exact bounded j

/-! ## Rounds -/

/-- How many names are live in front of a number of lists, counted list by list. -/
def measure (count : Nat) (front : List LiveSet) : Nat :=
  ((List.range count).map
    (fun i => (at? front i).memory.length + (at? front i).qubits.length)).sum

theorem Growing.measure_le (growing : Growing readout lists front)
    (bounded : Bounded readout lists front) :
    measure lists.length front ≤ lists.length * (readout.length +
      (lists.flatMap (fun list => list.running.flatMap broughtIn)).length) := by
  rw [← universe_length]
  have each : ∀ n ∈ (List.range lists.length).map
      (fun i => (at? front i).memory.length + (at? front i).qubits.length),
      n ≤ (memoryUniverse readout lists).length + (qubitUniverse lists).length := by
    intro n member
    obtain ⟨i, _, rfl⟩ := List.mem_map.mp member
    have memory := ((growing.increasing i).memory.nodup.subperm (bounded i).memory).length_le
    have qubits := ((growing.increasing i).qubits.nodup.subperm (bounded i).qubits).length_le
    exact Nat.add_le_add memory qubits
  have all := List.sum_le_card_nsmul _ _ each
  rw [List.length_map, List.length_range] at all
  exact all

/-- A round that changes something adds a name. -/
theorem Growing.measure_lt (growing : Growing readout lists front)
    (next : Growing readout lists later) (within : FrontWithin front later) (differ : later ≠ front) :
    measure lists.length front < measure lists.length later := by
  have each : ∀ i, (at? front i).memory.length ≤ (at? later i).memory.length ∧
      (at? front i).qubits.length ≤ (at? later i).qubits.length := by
    intro i
    exact ⟨((growing.increasing i).memory.nodup.subperm (within i).memory).length_le,
      ((growing.increasing i).qubits.nodup.subperm (within i).qubits).length_le⟩
  obtain ⟨i, inside, other⟩ : ∃ i, i < lists.length ∧ at? front i ≠ at? later i := by
    by_contra none
    simp only [not_exists, not_and, ne_eq, not_not] at none
    apply differ
    apply List.ext_getElem (next.length.trans growing.length.symm)
    intro i here there
    have same := none i (by rwa [growing.length] at there)
    rw [at?, at?, List.getElem?_eq_getElem there, List.getElem?_eq_getElem here] at same
    exact same.symm
  refine List.sum_lt_sum _ _ (fun i _ => Nat.add_le_add (each i).1 (each i).2)
    ⟨i, List.mem_range.mpr inside, ?_⟩
  by_cases memory : (at? front i).memory = (at? later i).memory
  · have qubits : (at? front i).qubits ≠ (at? later i).qubits := by
      intro same
      apply other
      cases hf : at? front i
      cases hl : at? later i
      simp_all
    exact Nat.add_lt_add_of_le_of_lt (each i).1
      ((growing.increasing i).qubits.length_lt (next.increasing i).qubits (within i).qubits qubits)
  · exact Nat.add_lt_add_of_lt_of_le
      ((growing.increasing i).memory.length_lt (next.increasing i).memory (within i).memory memory)
      (each i).2

/-- With enough rounds left the last one changes nothing. -/
theorem Growing.rounds (growing : Growing readout lists front) (bounded : Bounded readout lists front)
    (assigns : AllAssign lists) (sorted : Sorted.Increasing readout) {bound : Nat}
    (enough : lists.length * (readout.length +
      (lists.flatMap (fun list => list.running.flatMap broughtIn)).length) <
        measure lists.length front + bound) :
    Growing readout lists (rounds readout lists bound front) ∧
      round readout lists (rounds readout lists bound front) = rounds readout lists bound front := by
  induction bound generalizing front with
  | zero => exact absurd (growing.measure_le bounded) (by omega)
  | succ bound ih =>
      obtain ⟨within, next⟩ := growing.renew assigns sorted (List.range lists.length).reverse
      unfold Liveness.rounds
      dsimp only
      split
      · next same => exact ⟨growing, same⟩
      · next differ =>
          have more := growing.measure_lt next within differ
          refine ih next (bounded.renew _) ?_
          unfold round
          omega

theorem at?_empties (lists : List InstructionList) (i : Nat) :
    at? (lists.map (fun _ => LiveSet.empty)) i = .empty := by
  unfold at?
  rw [List.getElem?_map]
  cases lists[i]? <;> rfl

theorem growing_empties (readout : List String) (lists : List InstructionList) :
    Growing readout lists (lists.map (fun _ => .empty)) := by
  refine ⟨List.length_map _, ?_, ?_⟩
  · intro i
    rw [at?_empties]
    exact LiveSet.increasing_empty
  · intro i list _
    rw [at?_empties]
    exact LiveSet.empty_within _

theorem bounded_empties (readout : List String) (lists : List InstructionList) :
    Bounded readout lists (lists.map (fun _ => .empty)) := by
  intro i
  rw [at?_empties]
  exact LiveSet.empty_within _

theorem fixpoint_eq (assigns : AllAssign lists) (sorted : Sorted.Increasing readout) {i : Nat}
    {list : InstructionList} (found : lists[i]? = some list) :
    at? (fixpoint readout lists) i = inFront readout (fixpoint readout lists) list := by
  obtain ⟨growing, same⟩ := (growing_empties readout lists).rounds (bounded_empties readout lists) assigns sorted
    (show _ < _ + roundBound readout lists by unfold roundBound; dsimp only; omega)
  have inside := (List.getElem?_eq_some_iff.mp found).1
  exact growing.stable assigns sorted same (by simpa using inside) found

end TwoLane.Liveness
